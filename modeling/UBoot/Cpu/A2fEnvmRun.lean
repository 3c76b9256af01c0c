import UBoot.Cpu.A2fEnvm

/-!
# What a write to the flash of the SmartFusion does

* `writePages_right`: while the pages lie in the flash, each is unprotected, filled and programmed,
  and the count is that of the bytes in front of the first command that fails.
* `envmWrite_right_iff`: a write is right if and only if its range ends inside the flash, or a
  command fails on the way to the end of the flash (`Bounded`): only the start of the range is
  checked.
-/

namespace UBoot.Cpu.A2f

open UBoot.Lib

/-- A store to the page. -/
def Event.StoresIn (page : Nat) : Event → Prop
  | .store addr _ => pageAddr addr = page
  | .unprotect _ _ => False
  | .program _ _ => False

/-- A command that fails. -/
def Event.Failed : Event → Prop
  | .store _ _ => False
  | .unprotect _ ok => ok = false
  | .program _ ok => ok = false

/-- The page of the byte is programmed, without a failure. -/
def Programmed (events : List Event) (addr : Nat) : Prop := .program (pageAddr addr) true ∈ events

/-- All stores to the page lie between a command that unprotects it and one that programs it. -/
def PageCycle (events : List Event) (page : Nat) : Prop :=
  ∃ before bytes behind ok,
    events = before ++ .unprotect page true :: (bytes ++ .program page ok :: behind) ∧
      (∀ e ∈ before, ¬ e.StoresIn page) ∧ (∀ e ∈ bytes, e.StoresIn page) ∧
        ∀ e ∈ behind, ¬ e.StoresIn page

/-- What a write is for: it stays inside the flash, each page goes through its commands, and what
is returned is the length of the longest part of the data, from its start, that is programmed. -/
structure EnvmRight (offset size : Nat) (r : Nat × List Event) : Prop where
  inside : ∀ a byte, .store a byte ∈ r.2 → envmBase ≤ a ∧ a < envmBase + flashSize
  cycle : ∀ a byte, .store a byte ∈ r.2 → PageCycle r.2 (pageAddr a)
  le : r.1 ≤ size
  longest : ∀ n ≤ size, (∀ j < n, Programmed r.2 (envmBase + offset + j)) ↔ n ≤ r.1
  all_iff : r.1 = size ↔
    (∀ e ∈ r.2, ¬ e.Failed) ∧ ∀ a, offset ≤ a → a < offset + size → a < flashSize

/-- The bytes from `x` on end inside the flash, or one of the commands fails that come before a
byte is stored behind its end. -/
def Bounded (answers : Nat → UInt32) (x left cmds : Nat) : Prop :=
  x + left ≤ flashSize ∨
    ∃ m ≤ 2 * (flashSize / pageSize - x / pageSize), ¬ Succeeds (answers (cmds + m))

section Pages

variable {answers : Nat → UInt32} {src : Contents} {left x y i cmds k : Nat}

theorem pageAddr_envm (h : x ≤ flashSize) : pageAddr (envmBase + x) = x / pageSize * pageSize := by
  have hflash : flashSize = 262144 := rfl
  rw [pageAddr, show pageSize = 128 from rfl, show envmBase = 0x60000000 from rfl]
  omega

/-- Behind the end of a page there is another one. -/
theorem pageAddr_lt (hxy : x < y) (hpage : y % pageSize = 0) {z : Nat} (hz : y ≤ z)
    (hle : z ≤ flashSize) : pageAddr (envmBase + x) < pageAddr (envmBase + z) := by
  rw [pageAddr_envm (by omega), pageAddr_envm hle]
  rw [show pageSize = 128 from rfl] at *
  omega

theorem mem_stores {e : Event} (hfit : x + k ≤ flashSize)
    (he : e ∈ stores src (envmBase + x) i k) :
    ∃ j < k, e = .store (envmBase + (x + j)) (src (i + j)) := by
  have hflash : flashSize = 262144 := rfl
  have hbase : envmBase = 0x60000000 := rfl
  obtain ⟨j, hj, rfl⟩ := List.mem_map.mp he
  have hj := List.mem_range.mp hj
  exact ⟨j, hj, by rw [Nat.mod_eq_of_lt (by omega), Nat.add_assoc]⟩

theorem storesIn_stores {e : Event} (hfit : x + k ≤ flashSize) (hk : k ≤ pageSize - x % pageSize)
    (he : e ∈ stores src (envmBase + x) i k) : e.StoresIn (pageAddr (envmBase + x)) := by
  obtain ⟨j, hj, rfl⟩ := mem_stores hfit he
  change pageAddr _ = _
  rw [pageAddr_envm (by omega), pageAddr_envm (by omega)]
  rw [show pageSize = 128 from rfl] at *
  omega

/-- The part of a page is inside the flash when its first command does not fail. -/
theorem part_fits (hx : x ≤ flashSize) (hbounded : Bounded answers x left cmds) (hleft : 0 < left)
    (hok : Succeeds (answers cmds)) :
    x < flashSize ∧ x + partLen (envmBase + x) left ≤ flashSize := by
  have hflash : flashSize = 262144 := rfl
  have hmod : (envmBase + x) % pageSize = x % pageSize := by
    rw [show pageSize = 128 from rfl, show envmBase = 0x60000000 from rfl]
    omega
  have hlt : x < flashSize := by
    rcases hbounded with hfit | ⟨m, hm, hfail⟩
    · omega
    · by_contra hge
      have hend : x = flashSize := by omega
      rw [hend, Nat.sub_self] at hm
      rw [show m = 0 by omega] at hfail
      exact hfail hok
  refine ⟨hlt, ?_⟩
  rw [partLen, hmod, show pageSize = 128 from rfl]
  omega

/-- The rest of the bytes, when both commands of the page have not failed. -/
theorem Bounded.next (hx : x ≤ flashSize) (hbounded : Bounded answers x left cmds)
    (hleft : 0 < left) (hok : Succeeds (answers cmds)) (hok' : Succeeds (answers (cmds + 1))) :
    Bounded answers (x + partLen (envmBase + x) left) (left - partLen (envmBase + x) left)
      (cmds + 2) := by
  have hflash : flashSize = 262144 := rfl
  obtain ⟨hlt, hfit⟩ := part_fits hx hbounded hleft hok
  have hmod : (envmBase + x) % pageSize = x % pageSize := by
    rw [show pageSize = 128 from rfl, show envmBase = 0x60000000 from rfl]
    omega
  have hpart : partLen (envmBase + x) left ≤ left := Nat.min_le_left _ _
  rcases hbounded with hinside | ⟨m, hm, hfail⟩
  · exact Or.inl (by omega)
  · rcases Nat.eq_zero_or_pos (left - partLen (envmBase + x) left) with hzero | hmore
    · exact Or.inl (by omega)
    · have hm0 : m ≠ 0 := by
        rintro rfl
        exact hfail hok
      have hm1 : m ≠ 1 := by
        rintro rfl
        exact hfail hok'
      refine Or.inr ⟨m - 2, ?_, by rwa [show cmds + 2 + (m - 2) = cmds + m by omega]⟩
      rw [partLen, hmod] at hmore ⊢
      rw [show pageSize = 128 from rfl] at *
      omega

/-- What holds of the rest of a write, from the offset `x` and the byte `i` on. -/
structure PagesRight (x i left : Nat) (r : Nat × List Event) : Prop where
  stores_in : ∀ a byte, .store a byte ∈ r.2 → ∃ y, x ≤ y ∧ y < flashSize ∧ a = envmBase + y
  cycle : ∀ a byte, .store a byte ∈ r.2 → PageCycle r.2 (pageAddr a)
  programs_in : ∀ page ok, .program page ok ∈ r.2 →
    ∃ y, x ≤ y ∧ y < flashSize ∧ page = pageAddr (envmBase + y)
  ge : i ≤ r.1
  le : r.1 ≤ i + left
  done : ∀ j < r.1 - i, Programmed r.2 (envmBase + (x + j))
  stopped : r.1 < i + left →
    x + (r.1 - i) ≤ flashSize ∧ ¬ Programmed r.2 (envmBase + (x + (r.1 - i)))
  all_iff : r.1 = i + left ↔ (∀ e ∈ r.2, ¬ e.Failed) ∧ x + left ≤ flashSize

theorem pagesRight_nil (hx : x ≤ flashSize) : PagesRight x i 0 (i, []) where
  stores_in a byte h := by cases h
  cycle a byte h := by cases h
  programs_in page ok h := by cases h
  ge := Nat.le_refl i
  le := Nat.le_refl i
  done j hj := by
    rw [Nat.sub_self] at hj
    omega
  stopped h := absurd h (Nat.lt_irrefl i)
  all_iff := iff_of_true rfl ⟨by simp, hx⟩

/-- The page cannot be unprotected. -/
theorem pagesRight_protected (hx : x ≤ flashSize) (hleft : 0 < left) :
    PagesRight x i left (i, [.unprotect (pageAddr (envmBase + x)) false]) where
  stores_in a byte h := by cases List.mem_singleton.mp h
  cycle a byte h := by cases List.mem_singleton.mp h
  programs_in page ok h := by cases List.mem_singleton.mp h
  ge := Nat.le_refl i
  le := Nat.le_add_right i left
  done j hj := by
    rw [Nat.sub_self] at hj
    omega
  stopped _ := by
    rw [Nat.sub_self]
    exact ⟨hx, fun h => by cases List.mem_singleton.mp h⟩
  all_iff := iff_of_false (by dsimp only; omega) fun h =>
    h.1 _ List.mem_cons_self rfl

theorem pageCycle_part {behind : List Event} {ok : Bool} (hfit : x + k ≤ flashSize)
    (hk : k ≤ pageSize - x % pageSize)
    (hbehind : ∀ e ∈ behind, ¬ e.StoresIn (pageAddr (envmBase + x))) :
    PageCycle (.unprotect (pageAddr (envmBase + x)) true :: stores src (envmBase + x) i k ++
      .program (pageAddr (envmBase + x)) ok :: behind) (pageAddr (envmBase + x)) :=
  ⟨[], _, behind, ok, rfl, by simp, fun _ => storesIn_stores hfit hk, hbehind⟩

/-- The page is filled, and cannot be programmed. -/
theorem pagesRight_unprogrammed (hfit : x + k ≤ flashSize) (hlt : x < flashSize)
    (hk : k ≤ pageSize - x % pageSize) (hleft : 0 < left) :
    PagesRight x i left (i, .unprotect (pageAddr (envmBase + x)) true ::
      stores src (envmBase + x) i k ++ [.program (pageAddr (envmBase + x)) false]) where
  stores_in a byte h := by
    rcases List.mem_append.mp h with hpart | hend
    · rcases List.mem_cons.mp hpart with heq | hmem
      · cases heq
      · obtain ⟨j, hj, heq⟩ := mem_stores hfit hmem
        exact ⟨x + j, by omega, by omega, (Event.store.inj heq).1⟩
    · cases List.mem_singleton.mp hend
  cycle a byte h := by
    rcases List.mem_append.mp h with hpart | hend
    · rcases List.mem_cons.mp hpart with heq | hmem
      · cases heq
      · have hin := storesIn_stores hfit hk hmem
        rw [show pageAddr a = pageAddr (envmBase + x) from hin]
        exact pageCycle_part hfit hk fun e he => by cases he
    · cases List.mem_singleton.mp hend
  programs_in page ok h := by
    rcases List.mem_append.mp h with hpart | hend
    · rcases List.mem_cons.mp hpart with heq | hmem
      · cases heq
      · obtain ⟨j, -, heq⟩ := mem_stores hfit hmem
        cases heq
    · cases List.mem_singleton.mp hend
      exact ⟨x, Nat.le_refl x, hlt, rfl⟩
  ge := Nat.le_refl i
  le := Nat.le_add_right i left
  done j hj := by
    rw [Nat.sub_self] at hj
    omega
  stopped _ := by
    rw [Nat.sub_self]
    refine ⟨by omega, fun h => ?_⟩
    rcases List.mem_append.mp h with hpart | hend
    · rcases List.mem_cons.mp hpart with heq | hmem
      · cases heq
      · obtain ⟨j, -, heq⟩ := mem_stores hfit hmem
        cases heq
    · cases List.mem_singleton.mp hend
  all_iff := iff_of_false (by dsimp only; omega) fun h =>
    h.1 (.program (pageAddr (envmBase + x)) false) (by simp) rfl

theorem mem_part {e : Event} {page : Nat} {bytes behind : List Event}
    (he : e ∈ Event.unprotect page true :: bytes ++ .program page true :: behind) :
    e = .unprotect page true ∨ e ∈ bytes ∨ e = .program page true ∨ e ∈ behind := by
  simpa [or_assoc] using he

section Programmed

variable {rest : Nat × List Event}

/-- What comes behind a part is about other pages. -/
theorem behind_page (hk : 0 < k) (hnext : rest.2 = [] ∧ k = left ∨ (x + k) % pageSize = 0)
    (hrest : PagesRight (x + k) (i + k) (left - k) rest) :
    (∀ e ∈ rest.2, ¬ e.StoresIn (pageAddr (envmBase + x))) ∧
      ∀ a byte, .store a byte ∈ rest.2 → pageAddr a ≠ pageAddr (envmBase + x) := by
  have hstore : ∀ a byte, .store a byte ∈ rest.2 → pageAddr a ≠ pageAddr (envmBase + x) := by
    intro a byte hmem
    rcases hnext with ⟨hnil, -⟩ | hpage
    · rw [hnil] at hmem
      cases hmem
    · obtain ⟨y, hle, hlt, rfl⟩ := hrest.stores_in a byte hmem
      exact (pageAddr_lt (by omega) hpage hle hlt.le).ne'
  refine ⟨?_, hstore⟩
  intro e he
  cases e with
  | store a byte => exact hstore a byte he
  | unprotect page ok => exact not_false
  | program page ok => exact not_false

/-- The page is filled and programmed, and the next part follows. -/
theorem pagesRight_programmed (hfit : x + k ≤ flashSize) (hlt : x < flashSize)
    (hk : k ≤ pageSize - x % pageSize) (hkpos : 0 < k) (hkleft : k ≤ left)
    (hnext : rest.2 = [] ∧ k = left ∨ (x + k) % pageSize = 0)
    (hrest : PagesRight (x + k) (i + k) (left - k) rest) :
    PagesRight x i left (rest.1, .unprotect (pageAddr (envmBase + x)) true ::
      stores src (envmBase + x) i k ++ .program (pageAddr (envmBase + x)) true :: rest.2) := by
  obtain ⟨hbehind, hother⟩ := behind_page hkpos hnext hrest
  have hge := hrest.ge
  have hle := hrest.le
  refine ⟨?_, ?_, ?_, by dsimp only; omega, by dsimp only; omega, ?_, ?_, ?_⟩
  · intro a byte h
    rcases mem_part h with heq | hmem | heq | hmem
    · cases heq
    · obtain ⟨j, hj, heq⟩ := mem_stores hfit hmem
      exact ⟨x + j, by omega, by omega, (Event.store.inj heq).1⟩
    · cases heq
    · obtain ⟨y, hxy, hy, heq⟩ := hrest.stores_in a byte hmem
      exact ⟨y, by omega, hy, heq⟩
  · intro a byte h
    rcases mem_part h with heq | hmem | heq | hmem
    · cases heq
    · have hin := storesIn_stores hfit hk hmem
      rw [show pageAddr a = pageAddr (envmBase + x) from hin]
      exact pageCycle_part hfit hk hbehind
    · cases heq
    · -- the commands of the page are among those of the rest
      obtain ⟨before, bytes, behind, ok, heq, hbefore, hbytes, hend⟩ := hrest.cycle a byte hmem
      have hdiffers := hother a byte hmem
      refine ⟨.unprotect (pageAddr (envmBase + x)) true :: stores src (envmBase + x) i k ++
        .program (pageAddr (envmBase + x)) true :: before, bytes, behind, ok, ?_, ?_, hbytes, hend⟩
      · dsimp only
        rw [heq]
        simp
      · intro e he
        rcases mem_part he with rfl | hpart | rfl | hpre
        · exact not_false
        · have hin := storesIn_stores hfit hk hpart
          obtain ⟨j, -, rfl⟩ := mem_stores hfit hpart
          exact fun h => hdiffers (h.symm.trans hin)
        · exact not_false
        · exact hbefore e hpre
  · intro page ok h
    rcases mem_part h with heq | hmem | heq | hmem
    · cases heq
    · obtain ⟨j, -, heq⟩ := mem_stores hfit hmem
      cases heq
    · exact ⟨x, Nat.le_refl x, hlt, (Event.program.inj heq).1⟩
    · obtain ⟨y, hxy, hy, heq⟩ := hrest.programs_in page ok hmem
      exact ⟨y, by omega, hy, heq⟩
  · intro j hj
    dsimp only at hj ⊢
    rcases Nat.lt_or_ge j k with hjk | hjk
    · have hpage : pageAddr (envmBase + (x + j)) = pageAddr (envmBase + x) := by
        rw [pageAddr_envm (by omega), pageAddr_envm (by omega)]
        rw [show pageSize = 128 from rfl] at *
        omega
      rw [Programmed, hpage]
      simp
    · have hdone := hrest.done (j - k) (by omega)
      rw [show x + k + (j - k) = x + j by omega] at hdone
      exact List.mem_append_right _ (List.mem_cons_of_mem _ hdone)
  · intro hstop
    dsimp only at hstop ⊢
    obtain ⟨hbound, hnot⟩ := hrest.stopped (by omega)
    rw [show x + k + (rest.1 - (i + k)) = x + (rest.1 - i) by omega] at hbound hnot
    refine ⟨hbound, fun h => ?_⟩
    rcases mem_part h with heq | hmem | heq | hmem
    · cases heq
    · obtain ⟨j, -, heq⟩ := mem_stores hfit hmem
      cases heq
    · have hpage : (x + k) % pageSize = 0 := by
        rcases hnext with ⟨-, hlast⟩ | hpage
        · omega
        · exact hpage
      have hgt := pageAddr_lt (x := x) (by omega) hpage (z := x + (rest.1 - i)) (by omega) hbound
      have heq := (Event.program.inj heq).1
      omega
    · exact hnot hmem
  · have hiff := hrest.all_iff
    rw [show i + k + (left - k) = i + left by omega,
      show x + k + (left - k) = x + left by omega] at hiff
    refine hiff.trans (and_congr_left fun _ => ⟨fun h e he => ?_, fun h e he => ?_⟩)
    · rcases mem_part he with rfl | hmem | rfl | hmem
      · exact fun hf => nomatch hf
      · obtain ⟨j, -, rfl⟩ := mem_stores hfit hmem
        exact not_false
      · exact fun hf => nomatch hf
      · exact h e hmem
    · exact h e (List.mem_append_right _ (List.mem_cons_of_mem _ he))

end Programmed

/-- While the commands do not fail behind the end of the flash, the pages are written right. -/
theorem writePages_right (hx : x ≤ flashSize) (hbounded : Bounded answers x left cmds) :
    PagesRight x i left (writePages answers src left (envmBase + x) i cmds) := by
  induction left using Nat.strongRecOn generalizing x i cmds with
  | ind left ih =>
    have hflash : flashSize = 262144 := rfl
    have hmod : (envmBase + x) % pageSize = x % pageSize := by
      rw [show pageSize = 128 from rfl, show envmBase = 0x60000000 from rfl]
      omega
    rw [writePages]
    by_cases hleft : 0 < left
    · rw [dif_pos hleft]
      by_cases hok : Succeeds (answers cmds)
      · rw [if_neg (not_not.mpr hok)]
        obtain ⟨hlt, hfit⟩ := part_fits hx hbounded hleft hok
        have hpos := partLen_pos (envmBase + x) hleft
        have hk : partLen (envmBase + x) left ≤ pageSize - x % pageSize := by
          rw [partLen, hmod]
          exact Nat.min_le_right _ _
        by_cases hok' : Succeeds (answers (cmds + 1))
        · have hrest := ih (left - partLen (envmBase + x) left) (by omega) (i :=
            i + partLen (envmBase + x) left) hfit (hbounded.next hx hleft hok hok')
          rw [← Nat.add_assoc] at hrest
          have haddr : (envmBase + x + partLen (envmBase + x) left) % 2 ^ 32 =
              envmBase + x + partLen (envmBase + x) left := by
            rw [show envmBase = 0x60000000 from rfl] at *
            omega
          dsimp only
          rw [if_neg (not_not.mpr hok'), haddr]
          refine pagesRight_programmed hfit hlt hk hpos (Nat.min_le_left _ _) ?_ hrest
          rcases Nat.eq_zero_or_pos (left - partLen (envmBase + x) left) with hzero | hmore
          · refine Or.inl ⟨?_, ?_⟩
            · rw [hzero, writePages, dif_neg (by omega)]
            · have : partLen (envmBase + x) left ≤ left := Nat.min_le_left _ _
              omega
          · refine Or.inr ?_
            rw [partLen, hmod] at hmore ⊢
            rw [show pageSize = 128 from rfl] at *
            omega
        · dsimp only
          rw [if_pos hok']
          exact pagesRight_unprogrammed hfit hlt hk hleft
      · rw [if_pos hok]
        exact pagesRight_protected hx hleft
    · rw [dif_neg hleft, Nat.eq_zero_of_not_pos hleft]
      exact pagesRight_nil hx

/-- Without a failure on the way, a byte is stored behind the end of the flash. -/
theorem writePages_outside (src : Contents) (i : Nat) (hx : x ≤ flashSize)
    (hlong : flashSize < x + left)
    (hok : ∀ m ≤ 2 * (flashSize / pageSize - x / pageSize), Succeeds (answers (cmds + m))) :
    ∃ byte, .store (envmBase + flashSize) byte ∈
      (writePages answers src left (envmBase + x) i cmds).2 := by
  induction left using Nat.strongRecOn generalizing x i cmds with
  | ind left ih =>
    have hflash : flashSize = 262144 := rfl
    have hbase : envmBase = 0x60000000 := rfl
    have hleft : 0 < left := by omega
    have hpos := partLen_pos (envmBase + x) hleft
    have hfirstOk : Succeeds (answers cmds) := hok 0 (Nat.zero_le _)
    rw [writePages, dif_pos hleft, if_neg (not_not.mpr hfirstOk)]
    dsimp only
    rcases hx.lt_or_eq with hlt | rfl
    · have hpart : partLen (envmBase + x) left = pageSize - x % pageSize := by
        rw [partLen, hbase, show pageSize = 128 from rfl]
        omega
      have hpages : x / pageSize < flashSize / pageSize := by
        rw [hflash, show pageSize = 128 from rfl]
        omega
      have hnext : x + (pageSize - x % pageSize) ≤ flashSize ∧
          (x + (pageSize - x % pageSize)) / pageSize = x / pageSize + 1 ∧
          pageSize - x % pageSize ≤ pageSize := by
        rw [hflash, show pageSize = 128 from rfl]
        omega
      obtain ⟨hfit, hdiv, hle⟩ := hnext
      have hsize : pageSize = 128 := rfl
      rw [if_neg (not_not.mpr (hok 1 (by omega))), hpart,
        Nat.mod_eq_of_lt (show envmBase + x + (pageSize - x % pageSize) < 2 ^ 32 by omega),
        Nat.add_assoc envmBase]
      have hok' : ∀ m ≤ 2 * (flashSize / pageSize - (x + (pageSize - x % pageSize)) / pageSize),
          Succeeds (answers (cmds + 2 + m)) := by
        intro m hm
        rw [hdiv] at hm
        rw [show cmds + 2 + m = cmds + (m + 2) by omega]
        exact hok (m + 2) (by omega)
      obtain ⟨byte, hbyte⟩ := ih (left - (pageSize - x % pageSize)) (by omega)
        (i := i + (pageSize - x % pageSize)) hfit (by omega) hok'
      exact ⟨byte, List.mem_append_right _ (List.mem_cons_of_mem _ hbyte)⟩
    · have hfirst : .store (envmBase + flashSize) (src i) ∈
          stores src (envmBase + flashSize) i (partLen (envmBase + flashSize) left) := by
        refine List.mem_map.mpr ⟨0, List.mem_range.mpr hpos, ?_⟩
        rw [Nat.add_zero, Nat.add_zero, Nat.mod_eq_of_lt (by omega)]
      refine ⟨src i, ?_⟩
      split
      · exact List.mem_append_left _ (List.mem_cons_of_mem _ hfirst)
      · exact List.mem_append_left _ (List.mem_cons_of_mem _ hfirst)

end Pages

/-! ## The write as a whole -/

section Write

variable {answers : Nat → UInt32} {src : Contents} {offset size : Nat}

theorem envmWrite_refused (h : flashSize < offset) : envmWrite answers offset src size = (0, []) :=
  if_pos h

theorem envmWrite_eq_pages (h : offset ≤ flashSize) : envmWrite answers offset src size =
    writePages answers src size (envmBase + offset) 0 0 := by
  have hflash : flashSize = 262144 := rfl
  have hbase : envmBase = 0x60000000 := rfl
  rw [envmWrite, if_neg (by omega), Nat.mod_eq_of_lt (by omega)]
  rw [writeLoop_eq_pages (by dsimp only; omega) (Nat.zero_add size) (Or.inl rfl) rfl]
  rfl

theorem right_refused (h : flashSize < offset) : EnvmRight offset size (0, []) where
  inside a byte h := by cases h
  cycle a byte h := by cases h
  le := Nat.zero_le size
  longest n _ := by
    constructor
    · intro hall
      rcases Nat.eq_zero_or_pos n with rfl | hpos
      · exact Nat.le_refl 0
      · cases hall 0 hpos
    · intro hn j hj
      exact absurd hj (by dsimp only at hn; omega)
  all_iff := by
    constructor
    · intro hsize
      exact ⟨by simp, fun a hlo hhi => by dsimp only at hsize; omega⟩
    · rintro ⟨-, hall⟩
      dsimp only
      by_contra hne
      have := hall offset (Nat.le_refl _) (by omega)
      omega

theorem right_of_pages {r : Nat × List Event} (hoffset : offset ≤ flashSize)
    (h : PagesRight offset 0 size r) : EnvmRight offset size r where
  inside a byte hmem := by
    obtain ⟨y, -, hy, rfl⟩ := h.stores_in a byte hmem
    exact ⟨Nat.le_add_right _ _, by omega⟩
  cycle := h.cycle
  le := by
    have := h.le
    omega
  longest n hn := by
    constructor
    · intro hall
      by_contra hlt
      have hstop := (h.stopped (by omega)).2
      rw [Nat.sub_zero, ← Nat.add_assoc] at hstop
      exact hstop (hall r.1 (by omega))
    · intro hle j hj
      rw [Nat.add_assoc]
      exact h.done j (by omega)
  all_iff := by
    have hiff := h.all_iff
    rw [Nat.zero_add] at hiff
    refine hiff.trans (and_congr_right fun _ => ⟨fun hfit a _ hhi => by omega, fun hall => ?_⟩)
    by_contra hlong
    have := hall flashSize hoffset (by omega)
    omega

/-- A write is right if and only if it starts behind the flash, ends inside, or a command fails
before a byte is stored behind the end. -/
theorem envmWrite_right_iff (answers : Nat → UInt32) (src : Contents) (offset size : UInt32) :
    EnvmRight offset.toNat size.toNat (envmWrite answers offset.toNat src size.toNat) ↔
      flashSize < offset.toNat ∨ Bounded answers offset.toNat size.toNat 0 := by
  generalize offset.toNat = offset
  generalize size.toNat = size
  rcases Nat.lt_or_ge flashSize offset with hout | hin
  · rw [envmWrite_refused hout]
    exact iff_of_true (right_refused hout) (Or.inl hout)
  · rw [envmWrite_eq_pages hin]
    constructor
    · intro h
      refine Or.inr ?_
      by_contra hnot
      unfold Bounded at hnot
      push Not at hnot
      obtain ⟨hlong, hok⟩ := hnot
      obtain ⟨byte, hbyte⟩ := writePages_outside src 0 hin hlong hok
      have := (h.inside _ byte hbyte).2
      omega
    · rintro (hout | hbounded)
      · omega
      · exact right_of_pages hin (writePages_right hin hbounded)

/-- Two bytes at the end of the flash: the second one is stored behind it. -/
theorem envmWrite_right_past :
    envmWrite (fun _ => 0) 0x3FFFF (fun _ => 0xAA) 2 =
      (2, [.unprotect 0x3FF80 true, .store 0x6003FFFF 0xAA, .program 0x3FF80 true,
        .unprotect 0x40000 true, .store 0x60040000 0xAA, .program 0x40000 true]) ∧
    ¬ EnvmRight 0x3FFFF 2 (envmWrite (fun _ => 0) 0x3FFFF (fun _ => 0xAA) 2) := by
  have hwrite : envmWrite (fun _ => 0) 0x3FFFF (fun _ => 0xAA) 2 =
      (2, [.unprotect 0x3FF80 true, .store 0x6003FFFF 0xAA, .program 0x3FF80 true,
        .unprotect 0x40000 true, .store 0x60040000 0xAA, .program 0x40000 true]) := by
    decide
  refine ⟨hwrite, fun h => ?_⟩
  have hinside := h.inside 0x60040000 0xAA (by rw [hwrite]; decide)
  exact absurd hinside.2 (by decide)

end Write

end UBoot.Cpu.A2f
