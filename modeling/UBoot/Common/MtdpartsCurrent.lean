import UBoot.Common.MtdpartsInvariant
import UBoot.Lib.Run

/-!
# The current partition

`current_mtd_partnum` is the index of the current partition in the list of its device.  It is
adjusted by offsets where a partition is added or deleted, which is right as long as the list is
sorted and the deleted partition does not stand behind the current one at the same offset.

* `partSortAdd_keeps`, `partDel_keeps`: one call.
* `current_kept`: in every run of such calls the current partition stays the same object.
-/

namespace UBoot.Common.Mtdparts

open UBoot.Lib
open UBoot.LibGeneric

/-! ## An index into a list -/

section Index

variable {α : Type} {A B : List α} {x : α} {i : Nat}

/-- Where an element is found after another one has been put in. -/
theorem getElem?_put_in (i : Nat) :
    (A ++ x :: B)[if A.length ≤ i then i + 1 else i]? = (A ++ B)[i]? := by
  split
  · rename_i hle
    have hsub : i + 1 - A.length = i - A.length + 1 := by omega
    rw [List.getElem?_append_right (by omega), List.getElem?_append_right hle, hsub,
      List.getElem?_cons_succ]
  · rename_i hlt
    rw [List.getElem?_append_left (by omega), List.getElem?_append_left (by omega)]

/-- Where an element is found after another one has been taken out. -/
theorem getElem?_taken_out (hne : i ≠ A.length) :
    (A ++ B)[if A.length < i then i - 1 else i]? = (A ++ x :: B)[i]? := by
  have h := @getElem?_put_in α A B x (if A.length < i then i - 1 else i)
  rw [← h]
  congr 1
  split <;> split <;> omega

end Index

/-! ## The state -/

section State

variable {E : Type} [Environment E]

open Environment

/-- The current partition, and the device that it is in. -/
def Mtd.currentPart (m : Mtd E) : Option (Nat × Part) :=
  m.current.bind fun dev =>
    (mtdPartInfo dev m.currentMtdPartnum).map fun part => (dev.addr, part)

/-- The number of all partitions. -/
def Mtd.total (m : Mtd E) : Nat := (m.devices.map fun dev => dev.parts.length).sum

/-- The partitions of the devices in front of the current one, and the index in it. -/
def Mtd.globalIndex (m : Mtd E) : Nat :=
  ((m.devices.takeWhile fun dev => some dev.addr ≠ m.currentMtdDev).map
    fun dev => dev.numParts.toNat).sum + m.currentMtdPartnum.toNat

/-- The lists are in order, and there is a current partition if there is a device. -/
structure CurrentOk (m : Mtd E) : Prop where
  listed : ∀ dev ∈ m.devices, dev.Listed ∧ dev.parts ≠ []
  nodup : (m.devices.map Device.addr).Nodup
  null : m.currentMtdDev = none → m.devices = []
  valid : ∀ addr, m.currentMtdDev = some addr →
    ∃ dev ∈ m.devices, dev.addr = addr ∧ m.currentMtdPartnum.toNat < dev.parts.length

/-- `index_partitions` has set the variables for the current partition. -/
def Indexed (m : Mtd E) : Prop :=
  ∀ addr part, m.currentPart = some (addr, part) → ∃ env,
    m.env = setenv (setenv env (str "mtddevnum") (some (digits m.globalIndex))) (str "mtddevname")
      (some part.name)

section Lemmas

variable {m m' : Mtd E} {dev d : Device} {part curr : Part} {addr : Nat} {n : UInt8}

theorem mtdPartInfo_eq (h : dev.Listed) : mtdPartInfo dev n = dev.parts[n.toNat]? := by
  unfold mtdPartInfo
  split
  · rename_i hle
    rw [UInt16.le_iff_toNat_le, h.numParts, UInt8.toNat_toUInt16] at hle
    rw [List.getElem?_eq_none hle]
  · rfl

omit [Environment E] in
theorem find?_addr (hnodup : (m.devices.map Device.addr).Nodup) (hdev : dev ∈ m.devices) :
    (m.devices.find? fun d => d.addr = dev.addr) = some dev := by
  have hsome : ∃ d, (m.devices.find? fun d => decide (d.addr = dev.addr)) = some d :=
    Option.isSome_iff_exists.mp (List.find?_isSome.mpr ⟨dev, hdev, decide_eq_true rfl⟩)
  obtain ⟨d, hd⟩ := hsome
  have haddr : d.addr = dev.addr := by simpa using List.find?_some hd
  rw [hd, List.inj_on_of_nodup_map hnodup (List.mem_of_find?_eq_some hd) hdev haddr]

omit [Environment E] in
theorem current_eq (hnodup : (m.devices.map Device.addr).Nodup) (hdev : dev ∈ m.devices)
    (hcurr : m.currentMtdDev = some dev.addr) : m.current = some dev := by
  rw [Mtd.current, hcurr, Option.bind_some, find?_addr hnodup hdev]

omit [Environment E] in
theorem currentPart_eq (hnodup : (m.devices.map Device.addr).Nodup) (hdev : dev ∈ m.devices)
    (hcurr : m.currentMtdDev = some dev.addr) (hlisted : dev.Listed) :
    m.currentPart = (dev.parts[m.currentMtdPartnum.toNat]?).map fun part => (dev.addr, part) := by
  rw [Mtd.currentPart, current_eq hnodup hdev hcurr, Option.bind_some, mtdPartInfo_eq hlisted]

theorem partsBefore_eq {l : List Device} (h : ∃ d ∈ l, d.addr = addr) :
    ∃ n, partsBefore addr l = some n ∧ n.toNat =
      ((l.takeWhile fun d => some d.addr ≠ some addr).map fun d => d.numParts.toNat).sum %
        2 ^ 16 := by
  induction l with
  | nil =>
    obtain ⟨d, hd, -⟩ := h
    cases hd
  | cons d l ih =>
    rw [partsBefore]
    by_cases hd : d.addr = addr
    · rw [if_pos hd, List.takeWhile_cons_of_neg (by simp [hd])]
      exact ⟨0, rfl, rfl⟩
    · obtain ⟨d', hd', haddr⟩ := h
      have hl : ∃ d ∈ l, d.addr = addr := by
        rcases List.mem_cons.mp hd' with rfl | hd'
        · exact absurd haddr hd
        · exact ⟨d', hd', haddr⟩
      obtain ⟨n, hn, hsum⟩ := ih hl
      rw [if_neg hd, List.takeWhile_cons_of_pos (by simp [hd]), hn]
      refine ⟨d.numParts + n, rfl, ?_⟩
      rw [UInt16.toNat_add, hsum, List.map_cons, List.sum_cons]
      omega

omit [Environment E] in
/-- The global index is that of a partition. -/
theorem globalIndex_lt (hok : ∀ dev ∈ m.devices, dev.Listed)
    (hnodup : (m.devices.map Device.addr).Nodup) (hdev : dev ∈ m.devices)
    (hcurr : m.currentMtdDev = some dev.addr)
    (hlt : m.currentMtdPartnum.toNat < dev.parts.length) : m.globalIndex < m.total := by
  unfold Mtd.globalIndex Mtd.total
  rw [hcurr]
  generalize m.devices = l at *
  induction l with
  | nil => cases hdev
  | cons d l ih =>
    have hd := (hok d List.mem_cons_self).numParts
    rw [List.map_cons, List.sum_cons]
    rw [List.map_cons, List.nodup_cons] at hnodup
    rcases List.mem_cons.mp hdev with rfl | hmem
    · rw [List.takeWhile_cons_of_neg (by simp), List.map_nil, List.sum_nil]
      omega
    · have hne : d.addr ≠ dev.addr := by
        intro heq
        exact hnodup.1 (heq ▸ List.mem_map_of_mem hmem)
      have := ih (fun d hd => hok d (List.mem_cons_of_mem _ hd)) hnodup.2 hmem
      rw [List.takeWhile_cons_of_pos (by simp [hne]), List.map_cons, List.sum_cons]
      omega

/-- `index_partitions` finds the current partition. -/
theorem indexPartitions_ok (hok : CurrentOk m) (htotal : m.total < 2 ^ 16) :
    ∃ env, indexPartitions m = some { m with env := env } ∧ Indexed { m with env := env } := by
  rcases Option.eq_none_or_eq_some m.currentMtdDev with hcurr | ⟨addr, hcurr⟩
  · refine ⟨_, by rw [indexPartitions, hcurr], ?_⟩
    intro addr part hpart
    have hnone : m.current = none := by rw [Mtd.current, hcurr, Option.bind_none]
    have hpart : m.currentPart = some (addr, part) := hpart
    rw [Mtd.currentPart, hnone, Option.bind_none] at hpart
    cases hpart
  · obtain ⟨dev, hdev, rfl, hlt⟩ := hok.valid addr hcurr
    have hlisted := (hok.listed dev hdev).1
    have hpart : mtdPartInfo dev m.currentMtdPartnum =
        some dev.parts[m.currentMtdPartnum.toNat] := by
      rw [mtdPartInfo_eq hlisted, List.getElem?_eq_getElem hlt]
    obtain ⟨n, hn, hsum⟩ := @partsBefore_eq dev.addr m.devices ⟨dev, hdev, rfl⟩
    have hindex : (n + m.currentMtdPartnum.toUInt16).toNat = m.globalIndex := by
      have hglobal := globalIndex_lt (fun d hd => (hok.listed d hd).1) hok.nodup hdev hcurr hlt
      unfold Mtd.globalIndex at hglobal ⊢
      rw [hcurr] at hglobal ⊢
      rw [UInt16.toNat_add, hsum, UInt8.toNat_toUInt16]
      omega
    refine ⟨setenv (setenv m.env (str "mtddevnum") (some (digits m.globalIndex)))
      (str "mtddevname") (some dev.parts[m.currentMtdPartnum.toNat].name), ?_, ?_⟩
    · unfold indexPartitions
      split
      · rename_i hnone
        rw [hcurr] at hnone
        cases hnone
      · rename_i addr haddr
        rw [hcurr] at haddr
        cases haddr
        rw [hn, current_eq hok.nodup hdev hcurr, Option.bind_some, hpart]
        dsimp only
        rw [hindex]
    · intro addr' part' hpart'
      have hpart' : m.currentPart = some (addr', part') := hpart'
      rw [currentPart_eq hok.nodup hdev hcurr hlisted, List.getElem?_eq_getElem hlt] at hpart'
      cases hpart'
      exact ⟨m.env, rfl⟩

/-- So does `current_save`. -/
theorem currentSave_ok (hok : CurrentOk m) (htotal : m.total < 2 ^ 16) :
    ∃ env last, currentSave m = some { m with env := env, lastPartition := last } ∧
      Indexed { m with env := env, lastPartition := last } := by
  have hframe : ∀ (env : E) (last : Bytes),
      CurrentOk { m with env := env, lastPartition := last } :=
    fun _ _ => ⟨hok.listed, hok.nodup, hok.null, hok.valid⟩
  rcases Option.eq_none_or_eq_some m.currentMtdDev with hcurr | ⟨addr, hcurr⟩
  · obtain ⟨env, heq, hindexed⟩ := indexPartitions_ok
      (hframe (setenv m.env (str "partition") none) []) htotal
    refine ⟨env, [], ?_, hindexed⟩
    unfold currentSave
    split
    · exact heq
    · rename_i addr haddr
      rw [hcurr] at haddr
      cases haddr
  · obtain ⟨dev, hdev, rfl, hlt⟩ := hok.valid addr hcurr
    obtain ⟨env, heq, hindexed⟩ := indexPartitions_ok (hframe (setenv m.env (str "partition") (some
      (dev.id.type.name ++ digits dev.id.num.toNat ++ str "," ++ digits m.currentMtdPartnum.toNat)))
      (dev.id.type.name ++ digits dev.id.num.toNat ++ str "," ++
        digits m.currentMtdPartnum.toNat)) htotal
    refine ⟨env, _, ?_, hindexed⟩
    unfold currentSave
    split
    · rename_i hnone
      rw [hcurr] at hnone
      cases hnone
    · rw [current_eq hok.nodup hdev hcurr]
      exact heq

/-! ### A device is replaced -/

section Update

variable {dev' : Device}

omit [Environment E] in
theorem map_addr_update :
    (m.update dev').devices.map Device.addr = m.devices.map Device.addr := by
  show (m.devices.map _).map Device.addr = _
  rw [List.map_map]
  refine List.map_congr_left fun d hd => ?_
  show (if d.addr = dev'.addr then dev' else d).addr = d.addr
  split
  · rename_i heq
    exact heq.symm
  · rfl

omit [Environment E] in
theorem mem_update_self (hdev : dev ∈ m.devices) (haddr : dev'.addr = dev.addr) :
    dev' ∈ (m.update dev').devices :=
  List.mem_map.mpr ⟨dev, hdev, if_pos haddr.symm⟩

omit [Environment E] in
theorem mem_update_other (hd : d ∈ m.devices) (hne : d.addr ≠ dev'.addr) :
    d ∈ (m.update dev').devices :=
  List.mem_map.mpr ⟨d, hd, if_neg hne⟩

omit [Environment E] in
theorem total_update (hnodup : (m.devices.map Device.addr).Nodup) (hdev : dev ∈ m.devices)
    (haddr : dev'.addr = dev.addr) :
    (m.update dev').total + dev.parts.length = m.total + dev'.parts.length := by
  unfold Mtd.total Mtd.update
  dsimp only
  generalize m.devices = l at *
  induction l with
  | nil => cases hdev
  | cons d l ih =>
    rw [List.map_cons, List.nodup_cons] at hnodup
    rw [List.map_cons, List.map_cons, List.sum_cons, List.map_cons, List.sum_cons]
    rcases List.mem_cons.mp hdev with rfl | hmem
    · have hrest : (l.map fun d => if d.addr = dev'.addr then dev' else d) = l := by
        rw [List.map_congr_left fun d hd => if_neg ?_, List.map_id']
        intro heq
        exact hnodup.1 (haddr ▸ heq ▸ List.mem_map_of_mem hd)
      rw [hrest, if_pos haddr.symm]
      omega
    · have hne : d.addr ≠ dev'.addr := by
        intro heq
        exact hnodup.1 (heq.trans haddr ▸ List.mem_map_of_mem hmem)
      have := ih hnodup.2 hmem
      rw [if_neg hne]
      omega

omit [Environment E] in
/-- The state stays in order, with an index for the current device. -/
theorem CurrentOk.update (hok : CurrentOk m) (hdev : dev ∈ m.devices)
    (haddr : dev'.addr = dev.addr) (hlisted : dev'.Listed) (hne : dev'.parts ≠ [])
    (hn : if m.currentMtdDev = some dev.addr then n.toNat < dev'.parts.length
      else n = m.currentMtdPartnum) :
    CurrentOk { m.update dev' with currentMtdPartnum := n } := by
  refine ⟨?_, ?_, ?_, ?_⟩
  · intro d hd
    obtain ⟨d₀, hd₀, rfl⟩ := List.mem_map.mp hd
    split
    · exact ⟨hlisted, hne⟩
    · exact hok.listed d₀ hd₀
  · show ((m.update dev').devices.map Device.addr).Nodup
    rw [map_addr_update]
    exact hok.nodup
  · intro hnull
    have hnil := hok.null hnull
    rw [hnil] at hdev
    cases hdev
  · intro addr hcurr
    have hcurr : m.currentMtdDev = some addr := hcurr
    obtain ⟨d, hd, rfl, hlt⟩ := hok.valid addr hcurr
    by_cases hsame : d.addr = dev.addr
    · rw [hcurr, if_pos (by rw [hsame])] at hn
      exact ⟨dev', mem_update_self hdev haddr, haddr.trans hsame.symm, hn⟩
    · rw [hcurr, if_neg (by simpa using hsame)] at hn
      subst hn
      exact ⟨d, mem_update_other hd (by rwa [haddr]), rfl, hlt⟩

omit [Environment E] in
/-- The current partition is found in the list that replaces the one of its device. -/
theorem currentPart_update (hok : CurrentOk m) (hdev : dev ∈ m.devices)
    (haddr : dev'.addr = dev.addr) (hlisted : dev'.Listed)
    (hn : if m.currentMtdDev = some dev.addr then
      dev'.parts[n.toNat]? = dev.parts[m.currentMtdPartnum.toNat]? else n = m.currentMtdPartnum) :
    ({ m.update dev' with currentMtdPartnum := n } : Mtd E).currentPart = m.currentPart := by
  have hnodup : (({ m.update dev' with currentMtdPartnum := n } : Mtd E).devices.map
      Device.addr).Nodup := by
    show ((m.update dev').devices.map Device.addr).Nodup
    rw [map_addr_update]
    exact hok.nodup
  rcases Option.eq_none_or_eq_some m.currentMtdDev with hcurr | ⟨addr, hcurr⟩
  · have hnil := hok.null hcurr
    rw [hnil] at hdev
    cases hdev
  · obtain ⟨d, hd, rfl, hlt⟩ := hok.valid addr hcurr
    by_cases hsame : d.addr = dev.addr
    · have hdev' : d = dev := List.inj_on_of_nodup_map hok.nodup hd hdev hsame
      subst hdev'
      rw [if_pos hcurr] at hn
      rw [currentPart_eq hnodup (mem_update_self hd haddr) (hcurr.trans (by rw [haddr])) hlisted,
        currentPart_eq hok.nodup hd hcurr (hok.listed d hd).1]
      show (dev'.parts[n.toNat]?).map _ = _
      rw [hn, haddr]
    · rw [hcurr, if_neg (by simpa using hsame)] at hn
      subst hn
      have hlisted' := (hok.listed d hd).1
      rw [currentPart_eq hnodup (mem_update_other hd (by rwa [haddr])) hcurr hlisted',
        currentPart_eq hok.nodup hd hcurr hlisted']

end Update

/-! ### One call -/

/-- What is said of a call that leaves `m'`; `deleted` if it deletes the current partition. -/
structure Keeps (m m' : Mtd E) (deleted : Prop) : Prop where
  null_iff : m'.currentMtdDev = none ↔ m'.devices = []
  lt : ∀ dev, m'.current = some dev → m'.currentMtdPartnum.toNat < dev.numParts.toNat
  same : ¬ deleted → m'.currentPart = m.currentPart
  reset : deleted → m'.devices ≠ [] → m'.currentMtdPartnum = 0 ∧
    m'.currentMtdDev = if m'.devices.any (fun dev => some dev.addr = m.currentMtdDev)
      then m.currentMtdDev else m'.devices.head?.map Device.addr

/-- `part_sort_add` returns, and keeps the current partition. -/
def AddKeeps (m : Mtd E) (dev : Device) (part : Part) : Prop :=
  ∃ r m', partSortAdd m dev part = some (r, m') ∧ Keeps m m' False ∧
    (r.isSome → Indexed m')

/-- `part_del` returns, and keeps the current partition if it is another one. -/
def DelKeeps (m : Mtd E) (dev : Device) (part : Part) : Prop :=
  ∃ m', partDel m dev part = some m' ∧
    Keeps m m' (m.currentPart.map (fun curr => (curr.1, curr.2.addr)) =
      some (dev.addr, part.addr)) ∧ Indexed m'

omit [Environment E] in
theorem CurrentOk.null_iff (hok : CurrentOk m) : m.currentMtdDev = none ↔ m.devices = [] := by
  constructor
  · exact hok.null
  · intro hnil
    rcases Option.eq_none_or_eq_some m.currentMtdDev with hcurr | ⟨addr, hcurr⟩
    · exact hcurr
    · obtain ⟨dev, hdev, -⟩ := hok.valid addr hcurr
      rw [hnil] at hdev
      cases hdev

omit [Environment E] in
theorem CurrentOk.lt (hok : CurrentOk m) (h : m.current = some dev) :
    m.currentMtdPartnum.toNat < dev.numParts.toNat := by
  obtain ⟨addr, hcurr, hfind⟩ := Option.bind_eq_some_iff.mp h
  obtain ⟨d, hd, rfl, hlt⟩ := hok.valid addr hcurr
  rw [find?_addr hok.nodup hd] at hfind
  cases hfind
  rw [(hok.listed dev hd).1.numParts]
  exact hlt

omit [Environment E] in
/-- The environment is not part of the state. -/
theorem CurrentOk.env (hok : CurrentOk m) (env : E) (last : Bytes) :
    CurrentOk { m with env := env, lastPartition := last } :=
  ⟨hok.listed, hok.nodup, hok.null, hok.valid⟩

omit [Environment E] in
/-- What is left to say of a state that is in order. -/
theorem Keeps.of_ok {deleted : Prop} (hok : CurrentOk m')
    (hsame : ¬ deleted → m'.currentPart = m.currentPart)
    (hreset : deleted → m'.devices ≠ [] → m'.currentMtdPartnum = 0 ∧
      m'.currentMtdDev = if m'.devices.any (fun dev => some dev.addr = m.currentMtdDev)
        then m.currentMtdDev else m'.devices.head?.map Device.addr) : Keeps m m' deleted :=
  ⟨hok.null_iff, fun _ => hok.lt, hsame, hreset⟩

/-- Where a new partition goes. -/
theorem insertPart_split {new : Part} {l l' : List Part} {o : Option Part}
    (h : insertPart new l = some (l', o)) : ∃ A B, l = A ++ B ∧ l' = A ++ new :: B ∧
      o = B.head? ∧ (∀ p ∈ A, p.offset < new.offset) ∧ ∀ p, o = some p → new.offset ≤ p.offset := by
  induction l generalizing l' o with
  | nil =>
    cases h
    exact ⟨[], [], rfl, rfl, rfl, fun p hp => (by cases hp), fun p hp => (by cases hp)⟩
  | cons pi rest ih =>
    rw [insertPart] at h
    split at h
    · cases h
    split at h
    · rename_i hle
      cases h
      refine ⟨[], pi :: rest, rfl, rfl, rfl, fun p hp => (by cases hp), ?_⟩
      intro p hp
      cases hp
      exact hle
    · rename_i hnot
      obtain ⟨⟨l₁, o₁⟩, hins, heq⟩ := Option.map_eq_some_iff.mp h
      cases heq
      obtain ⟨A, B, rfl, rfl, ho, hbefore, hbehind⟩ := ih hins
      refine ⟨pi :: A, B, rfl, rfl, ho, ?_, hbehind⟩
      intro p hp
      rcases List.mem_cons.mp hp with rfl | hp
      · exact UInt32.not_le.mp hnot
      · exact hbefore p hp

/-- The index is moved up exactly when the new partition stands before the current one. -/
theorem insert_before_iff {A B : List Part} {i : Nat} {o : Option Part}
    (hsorted : (A ++ B).Pairwise fun p q => p.offset ≤ q.offset) (ho : o = B.head?)
    (hbefore : ∀ p ∈ A, p.offset < part.offset) (hbehind : ∀ p, o = some p → part.offset ≤ p.offset)
    (hi : (A ++ B)[i]? = some curr) :
    (∃ pi, o = some pi ∧ pi.offset ≤ curr.offset) ↔ A.length ≤ i := by
  constructor
  · rintro ⟨pi, hpi, hle⟩
    by_contra hlt
    rw [List.getElem?_append_left (by omega)] at hi
    have h₁ := hbefore curr (List.mem_of_getElem? hi)
    have h₂ := hbehind pi hpi
    exact absurd (UInt32.lt_of_lt_of_le h₁ (UInt32.le_trans h₂ hle)) (UInt32.lt_irrefl _)
  · intro hle
    rw [List.getElem?_append_right hle] at hi
    cases B with
    | nil => cases hi
    | cons pi B =>
      refine ⟨pi, ho, ?_⟩
      rcases List.mem_cons.mp (List.mem_of_getElem? hi) with rfl | hmem
      · exact UInt32.le_refl _
      · exact (List.pairwise_cons.mp (List.pairwise_append.mp hsorted).2.1).1 curr hmem

/-- `index_partitions` and `current_save` set the variables, and return where the state is in
order. -/
def SetsVariables (f : Mtd E → Option (Mtd E)) : Prop :=
  ∀ m : Mtd E, CurrentOk m → m.total < 2 ^ 16 → ∃ env last,
    f m = some { m with env := env, lastPartition := last } ∧
      Indexed { m with env := env, lastPartition := last }

theorem currentSave_sets : SetsVariables (currentSave (E := E)) := fun _ => currentSave_ok

theorem indexPartitions_sets : SetsVariables (indexPartitions (E := E)) := by
  intro m hok htotal
  obtain ⟨env, heq, hindexed⟩ := indexPartitions_ok hok htotal
  exact ⟨env, m.lastPartition, heq, hindexed⟩

omit [Environment E] in
theorem length_le_total (hnodup : (m.devices.map Device.addr).Nodup) (hdev : dev ∈ m.devices) :
    dev.parts.length ≤ m.total := by
  have := @total_update E m dev { dev with parts := [] } hnodup hdev rfl
  rw [List.length_nil] at this
  omega

/-- The current partition is at the index `n` in the list that replaces the one of its device. -/
def Moved (m : Mtd E) (dev dev' : Device) (n : UInt8) : Prop :=
  if m.currentMtdDev = some dev.addr then
    n.toNat < dev'.parts.length ∧ dev'.parts[n.toNat]? = dev.parts[m.currentMtdPartnum.toNat]?
  else n = m.currentMtdPartnum

/-- The variables are set for a list that replaces the one of a device. -/
theorem update_keeps {dev' : Device} {f : Mtd E → Option (Mtd E)} (hok : CurrentOk m)
    (hdev : dev ∈ m.devices) (haddr : dev'.addr = dev.addr) (hlisted : dev'.Listed)
    (hne : dev'.parts ≠ []) (htotal : (m.update dev').total < 2 ^ 16) (hf : SetsVariables f)
    (hn : Moved m dev dev' n) : ∃ m', f { m.update dev' with currentMtdPartnum := n } = some m' ∧
      CurrentOk m' ∧ m'.currentPart = m.currentPart ∧ Indexed m' := by
  unfold Moved at hn
  have hok' := @CurrentOk.update E m dev n dev' hok hdev haddr hlisted hne (by
    split
    · rename_i hcurr
      rw [if_pos hcurr] at hn
      exact hn.1
    · rename_i hcurr
      rwa [if_neg hcurr] at hn)
  have hsame := @currentPart_update E m dev n dev' hok hdev haddr hlisted (by
    split
    · rename_i hcurr
      rw [if_pos hcurr] at hn
      exact hn.2
    · rename_i hcurr
      rwa [if_neg hcurr] at hn)
  obtain ⟨env, last, heq, hindexed⟩ := hf _ hok' htotal
  exact ⟨_, heq, hok'.env env last, hsame, hindexed⟩

omit [Environment E] in
/-- The current partition and its index. -/
theorem exists_current (hok : CurrentOk m) (hdev : dev ∈ m.devices)
    (hcurr : m.currentMtdDev = some dev.addr) :
    ∃ curr, dev.parts[m.currentMtdPartnum.toNat]? = some curr ∧
      mtdPartInfo dev m.currentMtdPartnum = some curr ∧
      m.currentPart = some (dev.addr, curr) := by
  obtain ⟨d, hd, haddr, hlt⟩ := hok.valid dev.addr hcurr
  obtain rfl := List.inj_on_of_nodup_map hok.nodup hd hdev haddr
  have hlisted := (hok.listed d hd).1
  have hget := List.getElem?_eq_getElem hlt
  refine ⟨_, hget, (mtdPartInfo_eq hlisted).trans hget, ?_⟩
  rw [currentPart_eq hok.nodup hd hcurr hlisted, hget]
  rfl

/-- A new partition for a device of the list, or for one that is not in it yet, with room for it
in the indices. -/
structure AddOk (m : Mtd E) (dev : Device) (part : Part) : Prop where
  mem : dev ∈ m.devices ∨ ∀ d ∈ m.devices, d.addr ≠ dev.addr
  fresh : part.addr ∉ dev.parts.map Part.addr
  total : m.total + 1 < 2 ^ 16
  room : ∀ curr, m.currentPart = some (dev.addr, curr) → part.offset ≤ curr.offset →
    m.currentMtdPartnum ≠ 255

/-- What `part_sort_add` does to a list that takes the partition. -/
theorem partSortAdd_moves {o : Option Part} {l : List Part} (hok : CurrentOk m)
    (hdev : dev ∈ m.devices) (hadd : AddOk m dev part)
    (hins : insertPart part dev.parts = some (l, o)) :
    ∃ f n, SetsVariables f ∧
      Moved m dev { dev with parts := l, numParts := dev.numParts + 1 } n ∧
      partSortAdd m dev part = (do
        return (some { dev with parts := l, numParts := dev.numParts + 1 }, ← f
          { m.update { dev with parts := l, numParts := dev.numParts + 1 } with
            currentMtdPartnum := n })) := by
  have hroom := hadd.room
  obtain ⟨A, B, hparts, rfl, ho, hbefore, hbehind⟩ := insertPart_split hins
  unfold partSortAdd
  dsimp only
  rw [hins]
  by_cases hcurr : m.currentMtdDev = some dev.addr
  · rw [if_pos hcurr]
    obtain ⟨curr, hget, hinfo, hpart⟩ := exists_current hok hdev hcurr
    have hsorted := (hok.listed dev hdev).1.sorted
    have hlt := (List.getElem?_eq_some_iff.mp hget).1
    rw [hparts] at hsorted hget hlt
    rw [hinfo]
    have hiff := insert_before_iff hsorted ho hbefore hbehind hget
    have hmoved := @getElem?_put_in Part A B part m.currentMtdPartnum.toNat
    have hput : ∀ {n : UInt8}, n.toNat ≤ m.currentMtdPartnum.toNat + 1 →
        (A ++ part :: B)[n.toNat]? = (A ++ B)[m.currentMtdPartnum.toNat]? →
        Moved m dev { dev with parts := A ++ part :: B, numParts := dev.numParts + 1 } n := by
      intro n hn heq
      unfold Moved
      rw [if_pos hcurr, hparts]
      refine ⟨?_, heq⟩
      show n.toNat < (A ++ part :: B).length
      rw [List.length_append] at hlt ⊢
      rw [List.length_cons]
      omega
    by_cases hle : A.length ≤ m.currentMtdPartnum.toNat
    · obtain ⟨pi, rfl, hoff⟩ := hiff.mpr hle
      have hnum : m.currentMtdPartnum ≠ 255 :=
        hroom curr hpart (UInt32.le_trans (hbehind pi rfl) hoff)
      have hsucc : (m.currentMtdPartnum + 1).toNat = m.currentMtdPartnum.toNat + 1 := by
        have hmax : m.currentMtdPartnum.toNat ≠ 255 := fun h => hnum (UInt8.toNat_inj.mp h)
        have := m.currentMtdPartnum.toNat_lt
        rw [UInt8.toNat_add]
        show (_ + 1) % 2 ^ 8 = _
        omega
      refine ⟨currentSave, m.currentMtdPartnum + 1, currentSave_sets, ?_, ?_⟩
      · rw [if_pos hle] at hmoved
        exact hput hsucc.le (by rw [hsucc]; exact hmoved)
      · dsimp only
        rw [if_pos hoff]
    · have hnot : ∀ pi, o = some pi → ¬ pi.offset ≤ curr.offset :=
        fun pi hpi hoff => hle (hiff.mp ⟨pi, hpi, hoff⟩)
      refine ⟨indexPartitions, m.currentMtdPartnum, indexPartitions_sets, ?_, ?_⟩
      · rw [if_neg hle] at hmoved
        exact hput (Nat.le_succ _) hmoved
      · cases o with
        | none => rfl
        | some pi =>
          dsimp only
          rw [if_neg (hnot pi rfl)]
          rfl
  · rw [if_neg hcurr]
    refine ⟨indexPartitions, m.currentMtdPartnum, indexPartitions_sets, ?_, ?_⟩
    · unfold Moved
      rw [if_neg hcurr]
    · cases o <;> rfl

/-- A partition for a device that is not in the list. -/
theorem partSortAdd_fresh {o : Option Part} {l : List Part} (hok : CurrentOk m)
    (hfresh : ∀ d ∈ m.devices, d.addr ≠ dev.addr) (htotal : m.total < 2 ^ 16)
    (hins : insertPart part dev.parts = some (l, o)) :
    AddKeeps m dev part ∧ ∀ r m', partSortAdd m dev part = some (r, m') → CurrentOk m' := by
  have hcurr : m.currentMtdDev ≠ some dev.addr := by
    intro hcurr
    obtain ⟨d, hd, haddr, -⟩ := hok.valid dev.addr hcurr
    exact hfresh d hd haddr
  obtain ⟨env, hset, hindexed⟩ := indexPartitions_ok hok htotal
  have hupdate : m.update { dev with parts := l, numParts := dev.numParts + 1 } = m :=
    update_of_fresh hfresh
  have heq : partSortAdd m dev part =
      some (some { dev with parts := l, numParts := dev.numParts + 1 }, { m with env := env }) := by
    unfold partSortAdd
    dsimp only
    rw [if_neg hcurr, hins]
    cases o <;> dsimp only <;> rw [hupdate, hset] <;> rfl
  have hok' : CurrentOk { m with env := env } := hok.env env m.lastPartition
  refine ⟨⟨_, _, heq, Keeps.of_ok hok' (fun _ => rfl) False.elim, fun _ => hindexed⟩, ?_⟩
  intro r m' h
  rw [heq] at h
  cases h
  exact hok'

/-- `part_sort_add` keeps the state in order, and the current partition. -/
theorem partSortAdd_keeps (hok : CurrentOk m) (hadd : AddOk m dev part) :
    AddKeeps m dev part ∧ ∀ r m', partSortAdd m dev part = some (r, m') → CurrentOk m' := by
  have htotal := hadd.total
  cases hins : insertPart part dev.parts with
  | none =>
    have heq : partSortAdd m dev part = some (none, m) := by rw [partSortAdd, hins]
    refine ⟨⟨none, m, heq, Keeps.of_ok hok (fun _ => rfl) False.elim, fun h => by cases h⟩, ?_⟩
    intro r m' h
    rw [heq] at h
    cases h
    exact hok
  | some ins =>
    obtain ⟨l, o⟩ := ins
    rcases hadd.mem with hdev | hfresh
    case inr => exact partSortAdd_fresh hok hfresh (by omega) hins
    have hlisted := (hok.listed dev hdev).1
    have hlen : l.length = dev.parts.length + 1 := (insertPart_perm hins).length_eq
    have hle := length_le_total hok.nodup hdev
    have hnew := hlisted.insert hins hadd.fresh (by omega)
    have hupdate := @total_update E m dev { dev with parts := l, numParts := dev.numParts + 1 }
      hok.nodup hdev rfl
    dsimp only at hupdate
    have hne : l ≠ [] := by
      intro hnil
      rw [hnil] at hlen
      cases hlen
    obtain ⟨f, n, hf, hmoved, heq⟩ := partSortAdd_moves hok hdev hadd hins
    obtain ⟨m₁, hm₁, hok₁, hsame, hindexed⟩ := @update_keeps E _ m dev n
      { dev with parts := l, numParts := dev.numParts + 1 } f hok hdev rfl hnew hne (by omega) hf
      hmoved
    rw [hm₁] at heq
    refine ⟨⟨_, m₁, heq, Keeps.of_ok hok₁ (fun _ => hsame) False.elim, fun _ => hindexed⟩, ?_⟩
    intro r m' h
    rw [heq] at h
    cases h
    exact hok₁

/-- A partition of a device of the list that does not stand behind the current one at the same
offset. -/
structure DelOk (m : Mtd E) (dev : Device) (part : Part) : Prop where
  mem : dev ∈ m.devices
  part_mem : part ∈ dev.parts
  total : m.total < 2 ^ 16
  apart : m.currentMtdDev = some dev.addr → ∀ curr k,
    dev.parts[m.currentMtdPartnum.toNat]? = some curr → dev.parts[k]? = some part →
    m.currentMtdPartnum.toNat < k → part.offset ≠ curr.offset

omit [Environment E] in
/-- The list without a partition. -/
theorem eraseP_split (hlisted : dev.Listed) (hpart : part ∈ dev.parts) :
    ∃ A B, dev.parts = A ++ part :: B ∧
      (dev.parts.eraseP fun p => p.addr = part.addr) = A ++ B := by
  obtain ⟨A, B, hparts⟩ := List.append_of_mem hpart
  refine ⟨A, B, hparts, ?_⟩
  have hnodup := hlisted.nodup
  rw [hparts, List.map_append, List.map_cons, List.nodup_append] at hnodup
  have hnone : ∀ p ∈ A, ¬ decide (p.addr = part.addr) = true := by
    intro p hp heq
    exact hnodup.2.2 _ (List.mem_map_of_mem hp) _ List.mem_cons_self (of_decide_eq_true heq)
  rw [hparts, List.eraseP_append_right _ hnone,
    @List.eraseP_cons_of_pos _ _ _ (fun p : Part => decide (p.addr = part.addr))
      (decide_eq_true rfl)]

omit [Environment E] in
theorem total_filter_le {q : Device → Bool} :
    ({ m with devices := m.devices.filter q } : Mtd E).total ≤ m.total := by
  unfold Mtd.total
  dsimp only
  generalize m.devices = l
  induction l with
  | nil => exact le_rfl
  | cons d l ih =>
    rw [List.filter_cons, List.map_cons, List.sum_cons]
    split
    · rw [List.map_cons, List.sum_cons]
      omega
    · omega

omit [Environment E] in
/-- The partition is the current one if it is at its index. -/
theorem deleted_iff (hlisted : dev.Listed) (hpart : part ∈ dev.parts) (hcurr : curr ∈ dev.parts)
    (hcurrent : m.currentPart = some (dev.addr, curr)) :
    m.currentPart.map (fun curr => (curr.1, curr.2.addr)) = some (dev.addr, part.addr) ↔
      curr = part := by
  rw [hcurrent]
  constructor
  · intro h
    have haddr : curr.addr = part.addr := (Prod.mk.inj (Option.some.inj h)).2
    exact List.inj_on_of_nodup_map hlisted.nodup hcurr hpart haddr
  · rintro rfl
    rfl

/-- The device goes with its last partition. -/
theorem deviceDel_keeps (hok : CurrentOk m) (hdel : DelOk m dev part) (hone : dev.numParts = 1) :
    DelKeeps m dev part ∧ ∀ m', partDel m dev part = some m' → CurrentOk m' := by
  obtain ⟨hdev, hpart, htotal, -⟩ := hdel
  have hlisted := (hok.listed dev hdev).1
  have hlen : dev.parts.length = 1 := by
    rw [← hlisted.numParts, hone]
    rfl
  have hparts : ∀ p ∈ dev.parts, p = part := by
    obtain ⟨q, hq⟩ := List.length_eq_one_iff.mp hlen
    intro p hp
    rw [hq] at hp hpart
    rw [List.mem_singleton.mp hp, List.mem_singleton.mp hpart]
  have hsub := List.filter_sublist (p := fun d : Device => decide (d.addr ≠ dev.addr))
    (l := m.devices)
  have htot := (@total_filter_le E m fun d => decide (d.addr ≠ dev.addr)).trans_lt htotal
  have hgone : ∀ d ∈ m.devices.filter fun d => decide (d.addr ≠ dev.addr), d.addr ≠ dev.addr :=
    fun d hd => of_decide_eq_true (List.mem_filter.mp hd).2
  have hfinish : ∀ {f : Mtd E → Option (Mtd E)} {m₁ : Mtd E}, SetsVariables f → CurrentOk m₁ →
      m₁.total < 2 ^ 16 → partDel m dev part = f m₁ →
      Keeps m m₁ (m.currentPart.map (fun curr => (curr.1, curr.2.addr)) =
        some (dev.addr, part.addr)) →
      DelKeeps m dev part ∧ ∀ m', partDel m dev part = some m' → CurrentOk m' := by
    intro f m₁ hf hok₁ htot₁ heq hkeeps
    obtain ⟨env, last, hset, hindexed⟩ := hf m₁ hok₁ htot₁
    rw [hset] at heq
    refine ⟨⟨_, heq, ⟨hkeeps.null_iff, hkeeps.lt, hkeeps.same, hkeeps.reset⟩, hindexed⟩, ?_⟩
    intro m' h
    rw [heq] at h
    cases h
    exact hok₁.env env last
  have hdel : partDel m dev part = deviceDel m dev := if_pos hone
  unfold deviceDel at hdel
  dsimp only at hdel
  by_cases hcurr : m.currentMtdDev = some dev.addr
  · obtain ⟨curr, hget, -, hcurrent⟩ := exists_current hok hdev hcurr
    have hmem := List.mem_of_getElem? hget
    have hdeleted := (deleted_iff hlisted hpart hmem hcurrent).mpr (hparts curr hmem)
    rw [if_pos hcurr] at hdel
    cases hleft : m.devices.filter fun d => decide (d.addr ≠ dev.addr) with
    | nil =>
      rw [hleft] at hdel htot
      have hok₁ : CurrentOk { m with devices := [], currentMtdDev := none } :=
        ⟨fun d hd => (by cases hd), List.nodup_nil, fun _ => rfl, fun a ha => (by cases ha)⟩
      exact hfinish currentSave_sets hok₁ htot hdel
        (Keeps.of_ok hok₁ (fun hnot => absurd hdeleted hnot) fun _ hne => absurd rfl hne)
    | cons first rest =>
      rw [hleft] at hdel htot hsub hgone
      have hfirst := (hok.listed first (hsub.mem List.mem_cons_self)).2
      have hok₁ : CurrentOk { m with
          devices := first :: rest, currentMtdDev := some first.addr, currentMtdPartnum := 0 } := by
        refine ⟨fun d hd => hok.listed d (hsub.mem hd), hok.nodup.sublist (hsub.map _),
          fun h => (by cases h), ?_⟩
        intro a ha
        cases ha
        exact ⟨first, List.mem_cons_self, rfl, List.length_pos_iff.mpr hfirst⟩
      refine hfinish currentSave_sets hok₁ htot hdel
        (Keeps.of_ok hok₁ (fun hnot => absurd hdeleted hnot) fun _ _ => ⟨rfl, ?_⟩)
      have hnone : ¬ (first :: rest).any (fun d => some d.addr = m.currentMtdDev) = true := by
        intro h
        obtain ⟨d, hd, haddr⟩ := List.any_eq_true.mp h
        rw [hcurr] at haddr
        exact hgone d hd (Option.some.inj (of_decide_eq_true haddr))
      rw [if_neg hnone]
      rfl
  · rw [if_neg hcurr] at hdel
    rcases Option.eq_none_or_eq_some m.currentMtdDev with hnone | ⟨addr, haddr⟩
    · have hnil := hok.null hnone
      rw [hnil] at hdev
      cases hdev
    obtain ⟨d, hd, rfl, hlt⟩ := hok.valid addr haddr
    have hne : d.addr ≠ dev.addr := fun h => hcurr (by rw [haddr, h])
    have hmem : d ∈ m.devices.filter fun d => decide (d.addr ≠ dev.addr) :=
      List.mem_filter.mpr ⟨hd, decide_eq_true hne⟩
    have hnodup := hok.nodup.sublist (hsub.map Device.addr)
    have hok₁ : CurrentOk { m with
        devices := m.devices.filter fun d => decide (d.addr ≠ dev.addr) } := by
      refine ⟨fun d hd => hok.listed d (hsub.mem hd), hnodup, ?_, ?_⟩
      · intro hnull
        have hnull : m.currentMtdDev = none := hnull
        rw [haddr] at hnull
        cases hnull
      · intro a ha
        have ha : m.currentMtdDev = some a := ha
        rw [haddr] at ha
        cases ha
        exact ⟨d, hmem, rfl, hlt⟩
    have hlistedd := (hok.listed d hd).1
    have hbefore := currentPart_eq hok.nodup hd haddr hlistedd
    have hsame : ({ m with devices := m.devices.filter (fun d => decide (d.addr ≠ dev.addr)) } :
        Mtd E).currentPart = m.currentPart := by
      rw [hbefore]
      exact currentPart_eq hnodup hmem haddr hlistedd
    refine hfinish indexPartitions_sets hok₁ htot hdel (Keeps.of_ok hok₁ (fun _ => hsame) ?_)
    intro hdeleted
    rw [hbefore, List.getElem?_eq_getElem hlt] at hdeleted
    exact absurd (Prod.mk.inj (Option.some.inj hdeleted)).1 hne

/-- Where `part_del` looks for the current partition. -/
theorem partnumAfterDel_moves {A B : List Part} (hlisted : dev.Listed)
    (hparts : dev.parts = A ++ part :: B)
    (hget : dev.parts[n.toNat]? = some curr) (hne : curr.addr ≠ part.addr)
    (hapart : n.toNat < A.length → part.offset ≠ curr.offset) :
    (partnumAfterDel part curr n).toNat < (A ++ B).length ∧
      (A ++ B)[(partnumAfterDel part curr n).toNat]? = some curr := by
  have hsorted := hlisted.sorted
  rw [hparts] at hget hsorted
  have hat : n.toNat ≠ A.length := by
    intro heq
    rw [heq, List.getElem?_append_right le_rfl, Nat.sub_self] at hget
    exact hne (congrArg Part.addr (Option.some.inj hget).symm)
  have htaken := (@getElem?_taken_out Part A B part n.toNat hat).trans hget
  have hindex : (partnumAfterDel part curr n).toNat =
      if A.length < n.toNat then n.toNat - 1 else n.toNat := by
    unfold partnumAfterDel
    rw [if_neg hne]
    obtain ⟨-, hB, hAB⟩ := List.pairwise_append.mp hsorted
    by_cases hlt : A.length < n.toNat
    · have hmem : curr ∈ B := by
        have hsub : n.toNat - A.length = n.toNat - A.length - 1 + 1 := by omega
        rw [List.getElem?_append_right hlt.le, hsub, List.getElem?_cons_succ] at hget
        exact List.mem_of_getElem? hget
      have hle : (1 : UInt8) ≤ n := by
        rw [UInt8.le_iff_toNat_le]
        show 1 ≤ n.toNat
        omega
      rw [if_pos ((List.pairwise_cons.mp hB).1 curr hmem), if_pos hlt,
        UInt8.toNat_sub_of_le _ _ hle]
      rfl
    · have hlt' : n.toNat < A.length := by omega
      have hmem : curr ∈ A := by
        rw [List.getElem?_append_left hlt'] at hget
        exact List.mem_of_getElem? hget
      have hoff := hAB curr hmem part List.mem_cons_self
      have hnot : ¬ part.offset ≤ curr.offset :=
        fun h => hapart hlt' (UInt32.le_antisymm h hoff)
      rw [if_neg hnot, if_neg hlt]
  rw [hindex]
  exact ⟨(List.getElem?_eq_some_iff.mp htaken).1, htaken⟩

/-- A partition that is not the only one. -/
theorem partDel_many (hone : dev.numParts ≠ 1) : partDel m dev part =
    match if m.currentMtdDev = some dev.addr then mtdPartInfo dev m.currentMtdPartnum else none with
    | some curr =>
      currentSave { m.update { dev with
          parts := dev.parts.eraseP fun p => p.addr = part.addr, numParts := dev.numParts - 1 } with
        currentMtdPartnum := partnumAfterDel part curr m.currentMtdPartnum }
    | none => indexPartitions (m.update { dev with
        parts := dev.parts.eraseP fun p => p.addr = part.addr, numParts := dev.numParts - 1 }) :=
  if_neg hone

/-- `part_del` keeps the state in order, and the current partition. -/
theorem partDel_keeps (hok : CurrentOk m) (hdel : DelOk m dev part) :
    DelKeeps m dev part ∧ ∀ m', partDel m dev part = some m' → CurrentOk m' := by
  by_cases hone : dev.numParts = 1
  · exact deviceDel_keeps hok hdel hone
  obtain ⟨hdev, hpart, htotal, hapart⟩ := hdel
  have hlisted := (hok.listed dev hdev).1
  have hleft := hlisted.erase hpart rfl
  obtain ⟨A, B, hparts, hAB⟩ := eraseP_split hlisted hpart
  obtain ⟨dev', hdev'⟩ : ∃ dev' : Device, dev' = { dev with
      parts := dev.parts.eraseP fun p => p.addr = part.addr, numParts := dev.numParts - 1 } :=
    ⟨_, rfl⟩
  rw [← hdev'] at hleft
  have haddr : dev'.addr = dev.addr := by rw [hdev']
  have hparts' : dev'.parts = A ++ B := by rw [hdev']; exact hAB
  have hlen : dev'.parts.length + 1 = dev.parts.length := by
    rw [hparts', hparts, List.length_append, List.length_append, List.length_cons]
    omega
  have hne : dev'.parts ≠ [] := by
    intro hnil
    rw [hnil] at hlen
    apply hone
    rw [← UInt16.toNat_inj, hlisted.numParts, ← hlen]
    rfl
  have hupdate := @total_update E m dev dev' hok.nodup hdev haddr
  have hdel := @partDel_many E _ m dev part hone
  rw [← hdev'] at hdel
  by_cases hcurr : m.currentMtdDev = some dev.addr
  · obtain ⟨curr, hget, hinfo, hcurrent⟩ := exists_current hok hdev hcurr
    have hmem := List.mem_of_getElem? hget
    have hiff := deleted_iff hlisted hpart hmem hcurrent
    rw [if_pos hcurr, hinfo] at hdel
    dsimp only at hdel
    by_cases hsame : curr = part
    · have hzero : partnumAfterDel part curr m.currentMtdPartnum = 0 := if_pos (by rw [hsame])
      rw [hzero] at hdel
      have hok₁ := @CurrentOk.update E m dev 0 dev' hok hdev haddr hleft hne (by
        rw [if_pos hcurr]
        exact List.length_pos_iff.mpr hne)
      have htot₁ : ({ m.update dev' with currentMtdPartnum := 0 } : Mtd E).total < 2 ^ 16 := by
        show (m.update dev').total < _
        omega
      obtain ⟨env, last, hset, hindexed⟩ := currentSave_sets _ hok₁ htot₁
      rw [hset] at hdel
      have hdeleted := hiff.mpr hsame
      refine ⟨⟨_, hdel, Keeps.of_ok (hok₁.env env last) (fun hnot => absurd hdeleted hnot)
        fun _ _ => ⟨rfl, ?_⟩, hindexed⟩, ?_⟩
      · have hany : (m.update dev').devices.any (fun d => some d.addr = m.currentMtdDev) = true :=
          List.any_eq_true.mpr ⟨dev', mem_update_self hdev haddr,
            decide_eq_true (by rw [hcurr, haddr])⟩
        exact (if_pos hany).symm
      · intro m' h
        rw [hdel] at h
        cases h
        exact hok₁.env env last
    · have hdiff : curr.addr ≠ part.addr :=
        fun h => hsame (List.inj_on_of_nodup_map hlisted.nodup hmem hpart h)
      have hmoved : Moved m dev dev' (partnumAfterDel part curr m.currentMtdPartnum) := by
        have hat : dev.parts[A.length]? = some part := by
          rw [hparts, List.getElem?_append_right le_rfl, Nat.sub_self]
          rfl
        have hmove := partnumAfterDel_moves hlisted hparts hget hdiff
          fun hlt => hapart hcurr curr A.length hget hat hlt
        unfold Moved
        rw [if_pos hcurr, hparts', hget]
        exact hmove
      obtain ⟨m₁, hm₁, hok₁, hpart₁, hindexed⟩ := update_keeps hok hdev haddr hleft hne (by omega)
        currentSave_sets hmoved
      rw [hm₁] at hdel
      refine ⟨⟨m₁, hdel, Keeps.of_ok hok₁ (fun _ => hpart₁)
        (fun hdeleted => absurd (hiff.mp hdeleted) hsame), hindexed⟩, ?_⟩
      intro m' h
      rw [hdel] at h
      cases h
      exact hok₁
  · rw [if_neg hcurr] at hdel
    dsimp only at hdel
    have hmoved : Moved m dev dev' m.currentMtdPartnum := by
      unfold Moved
      rw [if_neg hcurr]
    obtain ⟨m₁, hm₁, hok₁, hpart₁, hindexed⟩ := update_keeps hok hdev haddr hleft hne (by omega)
      indexPartitions_sets hmoved
    have hm₁ : indexPartitions (m.update dev') = some m₁ := hm₁
    rw [hm₁] at hdel
    refine ⟨⟨m₁, hdel, Keeps.of_ok hok₁ (fun _ => hpart₁) ?_, hindexed⟩, ?_⟩
    · intro hdeleted
      obtain ⟨p, hp, heq⟩ := Option.map_eq_some_iff.mp hdeleted
      obtain ⟨d, hd, hd'⟩ := Option.bind_eq_some_iff.mp hp
      obtain ⟨addr, ha, hfind⟩ := Option.bind_eq_some_iff.mp hd
      obtain ⟨q, -, rfl⟩ := Option.map_eq_some_iff.mp hd'
      have haddrd : d.addr = addr := by simpa using List.find?_some hfind
      have heq : d.addr = dev.addr := (Prod.mk.inj heq).1
      exact absurd (by rw [ha, ← haddrd, heq]) hcurr
    · intro m' h
      rw [hdel] at h
      cases h
      exact hok₁

end Lemmas

/-! ## Runs -/

/-- What changes the lists or the current partition. -/
inductive Change where
  | parse
  | chpart
  | add (dev : Device) (part : Part)
  | addDevice
  | del (dev : Device) (part : Part)
  | delall
  | other

/-- One change, and the state that it leaves. -/
inductive Step (flash : Flash) : Mtd E → Change → Mtd E → Prop
  /-- `mtdparts_init` has checked the length of the variable, and makes the first partition the
  current one. -/
  | parse {m m₀ m₁ m' : Mtd E} {s : Bytes} {first : Device} {rest : List Device}
      (hinit : mtdDevicesInit m = some m₀)
      (hget : Environment.getenv m₀.env (str "mtdparts") = some s)
      (hlen : s.length ≤ mtdpartsMaxlen - 1) (hparse : parseMtdparts flash m = some (true, m₁))
      (hfirst : m₁.devices = first :: rest)
      (hsave : currentSave { m₁ with
        currentMtdDev := some first.addr, currentMtdPartnum := 0 } = some m') :
      Step flash m .parse m'
  | parseFailed {m m₀ m' : Mtd E} {s : Bytes}
      (hinit : mtdDevicesInit m = some m₀)
      (hget : Environment.getenv m₀.env (str "mtdparts") = some s)
      (hlen : s.length ≤ mtdpartsMaxlen - 1) (hparse : parseMtdparts flash m = some (false, m')) :
      Step flash m .parse m'
  | chpart {m m' : Mtd E} {dev : Device} {pnum : UInt8} (hdev : dev ∈ m.devices)
      (hpnum : pnum.toNat < dev.parts.length)
      (hsave : currentSave { m with
        currentMtdDev := some dev.addr, currentMtdPartnum := pnum } = some m') :
      Step flash m .chpart m'
  | add {m m' : Mtd E} {dev : Device} {part : Part} {r : Option Device}
      (hadd : partSortAdd m dev part = some (r, m')) : Step flash m (.add dev part) m'
  | addDevice {m m' : Mtd E} {dev : Device} (hfresh : ∀ d ∈ m.devices, d.addr ≠ dev.addr)
      (hlisted : dev.Listed) (hne : dev.parts ≠ []) (hadd : deviceAdd m dev = some m') :
      Step flash m .addDevice m'
  | del {m m' : Mtd E} {dev : Device} {part : Part} (hdel : partDel m dev part = some m') :
      Step flash m (.del dev part) m'
  | delall {m m' : Mtd E} (hinit : mtdDevicesInit m = some m') : Step flash m .delall m'
  | other {m m' : Mtd E} (hdevices : m'.devices = m.devices)
      (hdev : m'.currentMtdDev = m.currentMtdDev)
      (hpartnum : m'.currentMtdPartnum = m.currentMtdPartnum) : Step flash m .other m'

/-- A partition is added or deleted where that keeps the current one. -/
def Allowed (m : Mtd E) : Change → Prop
  | .add dev part => AddOk m dev part
  | .del dev part => DelOk m dev part
  | _ => True

section Steps

variable {flash : Flash} {m m' : Mtd E} {ev : Change}

omit [Environment E] in
theorem CurrentOk.of_none (hdevices : m.devices = []) (hcurr : m.currentMtdDev = none) :
    CurrentOk m := by
  refine ⟨?_, ?_, fun _ => hdevices, ?_⟩
  · rw [hdevices]
    intro d hd
    cases hd
  · rw [hdevices]
    exact List.nodup_nil
  · rw [hcurr]
    intro addr h
    cases h

/-- One step keeps the state in order. -/
theorem Step.currentOk (hok : CurrentOk m) (hallowed : Allowed m ev) (hstep : Step flash m ev m') :
    CurrentOk m' := by
  cases hstep with
  | @parse m₀ m₁ _ s first rest hinit hget hlen hparse hfirst hsave =>
    obtain ⟨env, last, rfl⟩ := currentSave_frame hsave
    obtain ⟨hlists, -, -⟩ := parseMtdparts_ok hinit hget hlen hparse
    have hmem : first ∈ m₁.devices := by
      rw [hfirst]
      exact List.mem_cons_self
    refine ⟨fun d hd => ⟨(hlists.ok d hd).toListed, (hlists.ok d hd).nonempty⟩, hlists.nodup,
      fun h => (by cases h), ?_⟩
    intro a ha
    cases ha
    exact ⟨first, hmem, rfl, List.length_pos_iff.mpr (hlists.ok first hmem).nonempty⟩
  | parseFailed hinit hget hlen hparse =>
    obtain ⟨-, hcurr, hnil⟩ := parseMtdparts_ok hinit hget hlen hparse
    exact CurrentOk.of_none (hnil.mp rfl) hcurr
  | chpart hdev hpnum hsave =>
    obtain ⟨env, last, rfl⟩ := currentSave_frame hsave
    refine ⟨hok.listed, hok.nodup, fun h => (by cases h), ?_⟩
    intro a ha
    cases ha
    exact ⟨_, hdev, rfl, hpnum⟩
  | add hadd => exact (partSortAdd_keeps hok hallowed).2 _ _ hadd
  | @addDevice _ dev hfresh hlisted hne hadd =>
    unfold deviceAdd at hadd
    split at hadd
    · obtain ⟨env, last, rfl⟩ := currentSave_frame hadd
      refine ⟨?_, List.nodup_singleton _, fun h => (by cases h), ?_⟩
      · intro d hd
        rw [List.mem_singleton.mp hd]
        exact ⟨hlisted, hne⟩
      · intro a ha
        cases ha
        exact ⟨dev, List.mem_singleton_self dev, rfl, List.length_pos_iff.mpr hne⟩
    · rename_i hsome
      obtain ⟨env, rfl⟩ := indexPartitions_frame hadd
      refine ⟨?_, ?_, fun h => absurd (hok.null h) hsome, ?_⟩
      · intro d hd
        rcases List.mem_append.mp hd with hd | hd
        · exact hok.listed d hd
        · rw [List.mem_singleton.mp hd]
          exact ⟨hlisted, hne⟩
      · show ((m.devices ++ [dev]).map Device.addr).Nodup
        rw [List.map_append, List.nodup_append]
        refine ⟨hok.nodup, List.nodup_singleton _, ?_⟩
        intro a ha b hb hab
        obtain ⟨d, hd, rfl⟩ := List.mem_map.mp ha
        rw [List.mem_singleton.mp hb] at hab
        exact hfresh d hd hab
      · intro a ha
        obtain ⟨d, hd, haddr, hlt⟩ := hok.valid a ha
        exact ⟨d, List.mem_append_left _ hd, haddr, hlt⟩
  | del hdel => exact (partDel_keeps hok hallowed).2 _ hdel
  | delall hinit =>
    obtain ⟨env, rfl⟩ := mtdDevicesInit_frame hinit
    exact CurrentOk.of_none rfl rfl
  | other hdevices hdev hpartnum =>
    refine ⟨?_, ?_, ?_, ?_⟩
    · rw [hdevices]
      exact hok.listed
    · rw [hdevices]
      exact hok.nodup
    · rw [hdevices, hdev]
      exact hok.null
    · rw [hdevices, hdev, hpartnum]
      exact hok.valid

/-- **The current partition stays the same object** where partitions are added and deleted, in
every run in which no partition is deleted that stands behind the current one at the same offset,
and no index runs over. -/
theorem current_kept {start : Mtd E} {run : List (Mtd E × Change)}
    (hdevices : start.devices = []) (hcurr : start.currentMtdDev = none)
    (hrun : Run (Step flash) start run m) (hallowed : ∀ p ∈ run, Allowed p.1 p.2) :
    (∀ dev part, AddOk m dev part → AddKeeps m dev part) ∧
      ∀ dev part, DelOk m dev part → DelKeeps m dev part := by
  have hok := hrun.invariant CurrentOk Allowed (fun h ha hstep => hstep.currentOk h ha)
    (CurrentOk.of_none hdevices hcurr) hallowed
  exact ⟨fun _ _ h => (partSortAdd_keeps hok h).1, fun _ _ h => (partDel_keeps hok h).1⟩

end Steps

end State

/-- `mtdparts_init` for a flash with one variable. -/
def readSmall (mtdparts : Bytes) : Option (Mtd VarList) :=
  (parseMtdparts smallFlash (smallMtd mtdparts)).bind fun r =>
    if r.1 then r.2.devices.head?.bind fun first =>
      currentSave { r.2 with currentMtdDev := some first.addr, currentMtdPartnum := 0 }
    else none

theorem readSmall_run {s : Bytes} {m : Mtd VarList} (hread : readSmall s = some m)
    (hvar : ((mtdDevicesInit (smallMtd s)).bind
      fun m => Environment.getenv m.env (str "mtdparts")) = some s)
    (hlen : s.length ≤ mtdpartsMaxlen - 1) :
    Run (Step smallFlash) (smallMtd s) [(smallMtd s, .parse)] m := by
  obtain ⟨m₀, hinit, hget⟩ := Option.bind_eq_some_iff.mp hvar
  obtain ⟨⟨rc, m₁⟩, hparse, hread⟩ := Option.bind_eq_some_iff.mp hread
  cases rc with
  | false => cases hread
  | true =>
    obtain ⟨first, hfirst, hsave⟩ := Option.bind_eq_some_iff.mp hread
    obtain ⟨rest, hrest⟩ := List.head?_eq_some_iff.mp hfirst
    exact Run.refl.tail (.parse hinit hget hlen hparse hrest hsave)

/-- Four KiB between the two partitions. -/
def betweenPart : Part :=
  { addr := 100, name := str "new", autoName := false, size := 0x1000, offset := 0x2000,
    maskFlags := 0, sectorSize := 0x1000 }

/-- Of two partitions the second becomes the current one, a third is added in front of it, and the
first one is deleted. -/
theorem current_kept_edited : ∃ m₀ m₁ m₂ m : Mtd VarList, ∃ dev part dev' part',
    Run (Step smallFlash) (smallMtd (str "mtdparts=flash:8k,-@16k"))
      [(smallMtd (str "mtdparts=flash:8k,-@16k"), .parse), (m₀, .chpart), (m₁, .add dev part),
        (m₂, .del dev' part')] m ∧
    (AddOk m₁ dev part ∧ DelOk m₂ dev' part') ∧
      (∀ dev part, AddOk m dev part → AddKeeps m dev part) ∧
      ∀ dev part, DelOk m dev part → DelKeeps m dev part := by
  have hedit : ((readSmall (str "mtdparts=flash:8k,-@16k")).any fun m₀ =>
      m₀.devices.any fun dev => decide ((1 : UInt8).toNat < dev.parts.length) &&
        (currentSave { m₀ with currentMtdDev := some dev.addr, currentMtdPartnum := 1 }).any fun m₁ =>
          decide (dev ∈ m₁.devices ∧ betweenPart.addr ∉ dev.parts.map Part.addr ∧
            m₁.total + 1 < 2 ^ 16 ∧ m₁.currentMtdPartnum ≠ 255) &&
          (partSortAdd m₁ dev betweenPart).any fun r => r.2.devices.any fun dev' =>
            dev'.parts.any fun part' => decide (r.2.total < 2 ^ 16) &&
              ((dev'.parts[r.2.currentMtdPartnum.toNat]?).all fun curr =>
                decide (part'.offset ≠ curr.offset)) &&
              (partDel r.2 dev' part').isSome) = true := by
    decide
  obtain ⟨m₀, hm₀, hedit⟩ := (Option.any_eq_true _ _).mp hedit
  obtain ⟨dev, hdev, hedit⟩ := List.any_eq_true.mp hedit
  obtain ⟨htwo, hedit⟩ := (Bool.and_eq_true _ _).mp hedit
  obtain ⟨m₁, hchpart, hedit⟩ := (Option.any_eq_true _ _).mp hedit
  obtain ⟨haddOk, hedit⟩ := (Bool.and_eq_true _ _).mp hedit
  obtain ⟨⟨r, m₂⟩, hadd, hedit⟩ := (Option.any_eq_true _ _).mp hedit
  obtain ⟨dev', hdev', hedit⟩ := List.any_eq_true.mp hedit
  obtain ⟨part', hpart', hedit⟩ := List.any_eq_true.mp hedit
  obtain ⟨hedit, hdel⟩ := (Bool.and_eq_true _ _).mp hedit
  obtain ⟨htotal, hapart⟩ := (Bool.and_eq_true _ _).mp hedit
  obtain ⟨m, hdel⟩ := Option.isSome_iff_exists.mp hdel
  obtain ⟨hmem, hfresh, hroom, hpartnum⟩ := of_decide_eq_true haddOk
  have haddOk : AddOk m₁ dev betweenPart := ⟨.inl hmem, hfresh, hroom, fun _ _ _ => hpartnum⟩
  have hdelOk : DelOk m₂ dev' part' := by
    refine ⟨hdev', hpart', of_decide_eq_true htotal, fun _ curr k hcurr _ _ => ?_⟩
    rw [hcurr] at hapart
    exact of_decide_eq_true hapart
  have hrun := (((readSmall_run hm₀ (by decide) (by decide)).tail
    (.chpart hdev (of_decide_eq_true htwo) hchpart)).tail (.add hadd)).tail (.del hdel)
  refine ⟨m₀, m₁, m₂, m, dev, betweenPart, dev', part', hrun, ⟨haddOk, hdelOk⟩,
    current_kept rfl rfl hrun ?_⟩
  simp only [List.cons_append, List.nil_append, List.forall_mem_cons]
  exact ⟨trivial, trivial, haddOk, hdelOk, fun p hp => absurd hp List.not_mem_nil⟩

/-- Two partitions at one offset: the second in the list is deleted, and the index of the first
runs below zero. -/
theorem current_not_kept : ∃ start run, ∃ m : Mtd VarList, start.devices = [] ∧
    start.currentMtdDev = none ∧ Run (Step smallFlash) start run m ∧
    ∃ dev ∈ m.devices, ∃ part ∈ dev.parts, ¬ DelKeeps m dev part := by
  have hread : ((readSmall (str "mtdparts=flash:4k@4k(a),4k@4k(b)")).any fun m =>
      m.devices.any fun dev => dev.parts.any fun part => (partDel m dev part).isNone) = true := by
    decide
  obtain ⟨m, hm, hany⟩ := (Option.any_eq_true _ _).mp hread
  obtain ⟨dev, hdev, hany⟩ := List.any_eq_true.mp hany
  obtain ⟨part, hpart, hnone⟩ := List.any_eq_true.mp hany
  refine ⟨_, _, m, rfl, rfl, readSmall_run hm (by decide) (by decide), dev, hdev, part,
    hpart, ?_⟩
  rintro ⟨m', hdel, -⟩
  rw [hdel] at hnone
  cases hnone

end UBoot.Common.Mtdparts
