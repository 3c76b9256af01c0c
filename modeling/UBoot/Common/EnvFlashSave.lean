import UBoot.Common.EnvFlash
import UBoot.Lib.Blocks

/-!
# The rest of the sector in NOR flash

`saveenv` of `common/env_flash.c` where the sector of a copy is larger than the copy
(`CONFIG_ENV_SECT_SIZE > CONFIG_ENV_SIZE`).  With two copies the rest of the sector is saved in
front of the erase and restored behind the four writes of the copy; with one copy the whole sector
is put together in a buffer and written.

A call of the flash layer either does its work and returns 0, or fails: then it returns another code
and has left anything in its range.  `FlashAnswers` has the answers in the order of the calls.

* `saveenv_keeps_iff`: with one copy a call that returns 0 has kept the rest of the sector.  With
  two it has, if and only if a restore that fails has done its work all the same (`RestoreKept`),
  since the code of a failed restore is not returned.
-/

namespace UBoot.Common.EnvFlash

open UBoot.Lib

/-! ## The flash layer -/

/-- What one call of the flash layer does. -/
inductive FlashAnswer
  | ok
  | failed (rc : Nat) (rc_ne : rc ≠ 0) (left : Contents)

abbrev FlashAnswers := Nat → FlashAnswer

/-- The flash, and the number of calls so far. -/
structure FlashDev where
  flash : Contents
  time : Nat

/-- The result of a call. -/
structure FlashResult where
  rc : Nat
  dev : FlashDev

/-- A call with a range, and its work. -/
def flashCall (answers : FlashAnswers) (pos len : Nat) (work : Contents → Contents)
    (d : FlashDev) : FlashResult :=
  match answers d.time with
  | .ok => ⟨0, work d.flash, d.time + 1⟩
  | .failed rc _ left =>
    ⟨rc, fun a => if InRange pos len a then left a else d.flash a, d.time + 1⟩

/-- `flash_sect_protect`, which changes no byte. -/
def flashSectProtect (answers : FlashAnswers) (d : FlashDev) : FlashResult :=
  flashCall answers 0 0 id d

/-- `flash_sect_erase`, from an address to a last one. -/
def flashSectErase (answers : FlashAnswers) (first last : Nat) (d : FlashDev) : FlashResult :=
  flashCall answers first (last + 1 - first) (fun c => eraseAt c first (last + 1 - first)) d

/-- `flash_write` -/
def flashWrite (answers : FlashAnswers) (addr : Nat) (src : Bytes) (d : FlashDev) : FlashResult :=
  flashCall answers addr src.length (fun c => programAt c addr src) d

/-- Writes up to the first that fails. -/
def flashWrites (answers : FlashAnswers) : List (Nat × Bytes) → FlashDev → FlashResult
  | [], d => ⟨0, d⟩
  | (addr, src) :: ws, d =>
    let r := flashWrite answers addr src d
    if r.rc ≠ 0 then r else flashWrites answers ws r.dev

/-! ## One copy -/

/-- The place of the only copy: `CONFIG_ENV_SIZE` bytes in a sector of `2 ^ k`. -/
structure SinglePlace where
  addr : Nat
  envSize : Nat
  k : Nat
  lt : envSize < 2 ^ k
  inside : addr % 2 ^ k + envSize ≤ 2 ^ k

/-- `flash_sect_addr`, which is `flash_addr & ~(CONFIG_ENV_SECT_SIZE-1)`. -/
def SinglePlace.sectAddr (p : SinglePlace) : Nat := p.addr - p.addr % 2 ^ p.k

/-- `env_buffer` with the old contents of the sector and the current environment. -/
def SinglePlace.envBuffer (p : SinglePlace) (stack : Contents) (flash : Contents) (image : Bytes) :
    Contents :=
  storeAt (storeAt stack 0 (readAt flash p.sectAddr (2 ^ p.k))) (p.addr % 2 ^ p.k) image

/-- `saveenv` without `CONFIG_ENV_ADDR_REDUND`. -/
def saveenvSingle (answers : FlashAnswers) (stack : Contents) (p : SinglePlace) (image : Bytes)
    (d : FlashDev) : FlashResult :=
  let endAddr := p.sectAddr + 2 ^ p.k - 1
  let buffer := p.envBuffer stack d.flash image
  let r := flashSectProtect answers d
  if r.rc ≠ 0 then ⟨1, r.dev⟩
  else
    let r := flashSectErase answers p.sectAddr endAddr r.dev
    if r.rc ≠ 0 then ⟨1, r.dev⟩
    else
      let r := flashWrite answers p.sectAddr (readAt buffer 0 (2 ^ p.k)) r.dev
      ⟨if r.rc ≠ 0 then 1 else 0, (flashSectProtect answers r.dev).dev⟩

/-! ## Two copies -/

/-- The configuration: `ENV_SIZE` and `CONFIG_ENV_SECT_SIZE`. -/
structure RedundConfig where
  dataSize : Nat
  sectSize : Nat
  lt : envHeaderSize + dataSize < sectSize

/-- `CONFIG_ENV_SIZE` -/
def RedundConfig.envSize (cfg : RedundConfig) : Nat := envHeaderSize + cfg.dataSize

/-- The variables of the driver, which change places.  No sector has bytes of the other. -/
structure RedundPlaces (cfg : RedundConfig) where
  addr : Nat
  addrNew : Nat
  endAddr : Nat
  endAddrNew : Nat
  end_eq : endAddr + 1 = addr + cfg.sectSize
  end_new_eq : endAddrNew + 1 = addrNew + cfg.sectSize
  apart : addr + cfg.sectSize ≤ addrNew ∨ addrNew + cfg.sectSize ≤ addr

/-- The copies have changed places. -/
def RedundPlaces.swap {cfg : RedundConfig} (s : RedundPlaces cfg) : RedundPlaces cfg where
  addr := s.addrNew
  addrNew := s.addr
  endAddr := s.endAddrNew
  endAddrNew := s.endAddr
  end_eq := s.end_new_eq
  end_new_eq := s.end_eq
  apart := s.apart.symm

/-- The environment in RAM. -/
structure RamEnv (cfg : RedundConfig) where
  env : Env
  length_data : env.data.length = cfg.dataSize

/-- `saveenv` at the label `Done`, with whether it has come there from the end. -/
structure SaveDone where
  rc : Nat
  dev : FlashDev
  swapped : Bool

/-- The four writes of the copy. -/
def saveWrites {cfg : RedundConfig} (s : RedundPlaces cfg) (e : Env) : List (Nat × Bytes) :=
  [(s.addrNew + envHeaderSize, e.data), (s.addrNew, bytesOfWord e.crc),
    (s.addr + 4, [obsoleteFlag]), (s.addrNew + 4, [activeFlag])]

/-- `saveenv` with `CONFIG_ENV_ADDR_REDUND`, up to the label. -/
def saveenvBody {cfg : RedundConfig} (answers : FlashAnswers) (mallocOk : Bool)
    (s : RedundPlaces cfg) (e : Env) (d : FlashDev) : SaveDone :=
  let r := flashSectProtect answers d
  if r.rc ≠ 0 then ⟨1, r.dev, false⟩
  else
    let r := flashSectProtect answers r.dev
    if r.rc ≠ 0 then ⟨1, r.dev, false⟩
    else
      let upData := s.endAddrNew + 1 - (s.addrNew + cfg.envSize)
      if upData ≠ 0 ∧ mallocOk = false then ⟨1, r.dev, false⟩
      else
        let savedData := readAt r.dev.flash (s.addrNew + cfg.envSize) upData
        let r := flashSectErase answers s.addrNew s.endAddrNew r.dev
        if r.rc ≠ 0 then ⟨1, r.dev, false⟩
        else
          let r := flashWrites answers (saveWrites s e) r.dev
          if r.rc ≠ 0 then ⟨r.rc, r.dev, false⟩
          else if upData ≠ 0 then
            let w := flashWrite answers (s.addrNew + cfg.envSize) savedData r.dev
            -- `rc` is still that of the last write of the copy
            if w.rc ≠ 0 then ⟨r.rc, w.dev, false⟩ else ⟨0, w.dev, true⟩
          else ⟨0, r.dev, true⟩

/-- `saveenv` with `CONFIG_ENV_ADDR_REDUND`. -/
def saveenvRedund {cfg : RedundConfig} (answers : FlashAnswers) (mallocOk : Bool)
    (s : RedundPlaces cfg) (e : Env) (d : FlashDev) : FlashResult × RedundPlaces cfg :=
  let r := saveenvBody answers mallocOk s e d
  let d := (flashSectProtect answers r.dev).dev
  (⟨r.rc, (flashSectProtect answers d).dev⟩, if r.swapped then s.swap else s)

/-! ## What is wanted -/

/-- A call that has returned 0 has stored the image and kept the rest of the sector. -/
def Keeps (pos len addr : Nat) (image : Bytes) (d : FlashDev) (r : FlashResult) : Prop :=
  r.rc = 0 → readAt r.dev.flash addr image.length = image ∧
    ∀ a, InRange pos len a → ¬ InRange addr image.length a → r.dev.flash a = d.flash a

/-- Where the restore is reached and fails, it has left what was there in front of the call. -/
def RestoreKept {cfg : RedundConfig} (answers : FlashAnswers) (mallocOk : Bool)
    (s : RedundPlaces cfg) (d : FlashDev) : Prop :=
  mallocOk = true → (∀ i < 7, answers (d.time + i) = .ok) →
    ∀ rc hrc left, answers (d.time + 7) = .failed rc hrc left →
      ∀ a, InRange (s.addrNew + cfg.envSize) (cfg.sectSize - cfg.envSize) a → left a = d.flash a

/-! ## The calls -/

variable {answers : FlashAnswers} {pos len : Nat} {work : Contents → Contents} {d : FlashDev}

theorem flashCall_ok (h : answers d.time = .ok) (pos len : Nat) (work : Contents → Contents) :
    flashCall answers pos len work d = ⟨0, work d.flash, d.time + 1⟩ := by
  rw [flashCall, h]

theorem flashCall_failed {rc : Nat} {hrc : rc ≠ 0} {left : Contents}
    (h : answers d.time = .failed rc hrc left) (pos len : Nat) (work : Contents → Contents) :
    flashCall answers pos len work d =
      ⟨rc, fun a => if InRange pos len a then left a else d.flash a, d.time + 1⟩ := by
  rw [flashCall, h]

theorem flashCall_rc_ne (h : answers d.time ≠ .ok) (pos len : Nat) (work : Contents → Contents) :
    (flashCall answers pos len work d).rc ≠ 0 := by
  cases hanswer : answers d.time with
  | ok => exact absurd hanswer h
  | failed rc hrc left =>
    rw [flashCall_failed hanswer]
    exact hrc

/-- Protection changes no byte, whatever it answers. -/
theorem flashSectProtect_flash (answers : FlashAnswers) (d : FlashDev) :
    (flashSectProtect answers d).dev = ⟨d.flash, d.time + 1⟩ := by
  rw [flashSectProtect]
  cases hanswer : answers d.time with
  | ok => rw [flashCall_ok hanswer, id_eq]
  | failed rc hrc left =>
    have hsame : (fun a => if InRange 0 0 a then left a else d.flash a) = d.flash :=
      funext fun a => if_neg fun hin : InRange 0 0 a => Nat.not_lt_zero a hin.2
    rw [flashCall_failed hanswer, hsame]

/-! ## One copy, again -/

theorem sectAddr_add (p : SinglePlace) : p.sectAddr + p.addr % 2 ^ p.k = p.addr :=
  Nat.sub_add_cancel (Nat.mod_le _ _)

/-- The buffer, byte by byte. -/
theorem envBuffer_apply (p : SinglePlace) (stack flash : Contents) {image : Bytes}
    {a : Nat} (ha : a < 2 ^ p.k) : p.envBuffer stack flash image a =
      storeAt flash p.addr image (p.sectAddr + a) := by
  have hadd := sectAddr_add p
  have hiff : InRange (p.addr % 2 ^ p.k) image.length a ↔
      InRange p.addr image.length (p.sectAddr + a) := by
    rw [InRange, InRange]
    omega
  rw [SinglePlace.envBuffer, storeAt, storeAt, storeAt]
  by_cases hin : InRange p.addr image.length (p.sectAddr + a)
  · have hsub : p.sectAddr + a - p.addr = a - p.addr % 2 ^ p.k := by omega
    rw [if_pos hin, if_pos (hiff.mpr hin), hsub]
  · have hold : InRange 0 (readAt flash p.sectAddr (2 ^ p.k)).length a := by
      rw [length_readAt]
      exact ⟨Nat.zero_le a, by omega⟩
    rw [if_neg hin, if_neg (mt hiff.mp hin), if_pos hold, Nat.sub_zero,
      List.getD_eq_getElem?_getD, getElem?_readAt ha, Option.getD_some]

/-- The erase of the sector and the write of the buffer. -/
theorem sector_rewritten (p : SinglePlace) (stack flash : Contents) {image : Bytes}
    (hlen : image.length = p.envSize) :
    programAt (eraseAt flash p.sectAddr (2 ^ p.k)) p.sectAddr
      (readAt (p.envBuffer stack flash image) 0 (2 ^ p.k)) = storeAt flash p.addr image := by
  have hbuffer : (readAt (p.envBuffer stack flash image) 0 (2 ^ p.k)).length = 2 ^ p.k :=
    length_readAt _ _ _
  have hrewrite := programAt_eraseAt flash p.sectAddr
    (readAt (p.envBuffer stack flash image) 0 (2 ^ p.k))
  rw [hbuffer] at hrewrite
  have hadd := sectAddr_add p
  have hinside := p.inside
  rw [hrewrite]
  funext a
  rw [storeAt, hbuffer]
  by_cases hin : InRange p.sectAddr (2 ^ p.k) a
  · obtain ⟨hle, hlt⟩ := hin
    have hk : a - p.sectAddr < 2 ^ p.k := by omega
    rw [if_pos ⟨hle, hlt⟩, List.getD_eq_getElem?_getD, getElem?_readAt hk, Option.getD_some,
      Nat.zero_add, envBuffer_apply p stack flash hk, Nat.add_sub_of_le hle]
  · rw [if_neg hin, storeAt, if_neg]
    rintro ⟨hle, hlt⟩
    exact hin ⟨by omega, by omega⟩

/-- A call that returns 0 has erased the sector and written the buffer. -/
theorem saveenvSingle_flash {stack : Contents} {p : SinglePlace} {image : Bytes}
    (hlen : image.length = p.envSize) (hrc : (saveenvSingle answers stack p image d).rc = 0) :
    (saveenvSingle answers stack p image d).dev.flash = storeAt d.flash p.addr image := by
  have hpos := Nat.two_pow_pos p.k
  have hrange : p.sectAddr + 2 ^ p.k - 1 + 1 - p.sectAddr = 2 ^ p.k := by omega
  have hprotect := flashSectProtect_flash answers d
  rw [saveenvSingle] at hrc ⊢
  generalize flashSectProtect answers d = r₀ at hprotect hrc ⊢
  obtain ⟨rc₀, dev₀⟩ := r₀
  cases hprotect
  by_cases h₀ : rc₀ ≠ 0
  · rw [if_pos h₀] at hrc
    cases hrc
  by_cases h₁ : answers (d.time + 1) = .ok
  · have herase := flashCall_ok (d := ⟨d.flash, d.time + 1⟩) h₁ p.sectAddr (2 ^ p.k)
      fun c => eraseAt c p.sectAddr (2 ^ p.k)
    simp only [if_neg h₀, flashSectErase, hrange, herase, ne_eq, not_true_eq_false, if_false]
      at hrc ⊢
    by_cases h₂ : answers (d.time + 1 + 1) = .ok
    · have hwrite := flashCall_ok
        (d := ⟨eraseAt d.flash p.sectAddr (2 ^ p.k), d.time + 1 + 1⟩) h₂ p.sectAddr
        (readAt (p.envBuffer stack d.flash image) 0 (2 ^ p.k)).length
        fun c => programAt c p.sectAddr (readAt (p.envBuffer stack d.flash image) 0 (2 ^ p.k))
      rw [flashSectProtect_flash, flashWrite, hwrite]
      exact sector_rewritten p stack d.flash hlen
    · have hne := flashCall_rc_ne (d := ⟨eraseAt d.flash p.sectAddr (2 ^ p.k), d.time + 1 + 1⟩)
        h₂ p.sectAddr (readAt (p.envBuffer stack d.flash image) 0 (2 ^ p.k)).length
        fun c => programAt c p.sectAddr (readAt (p.envBuffer stack d.flash image) 0 (2 ^ p.k))
      rw [flashWrite, if_pos hne] at hrc
      cases hrc
  · have hne := flashCall_rc_ne (d := ⟨d.flash, d.time + 1⟩) h₁ p.sectAddr (2 ^ p.k)
      fun c => eraseAt c p.sectAddr (2 ^ p.k)
    simp only [if_neg h₀, flashSectErase, hrange, if_pos hne] at hrc
    cases hrc

theorem saveenvSingle_keeps (answers : FlashAnswers) (stack : Contents) (p : SinglePlace)
    {image : Bytes} (hlen : image.length = p.envSize) (d : FlashDev) :
    Keeps p.sectAddr (2 ^ p.k) p.addr image d (saveenvSingle answers stack p image d) := by
  intro hrc
  rw [saveenvSingle_flash hlen hrc]
  exact ⟨readAt_storeAt _ _ _, fun a _ hout => storeAt_of_not_inRange hout⟩

/-! ## Two copies, again -/

/-- The cells of some writes. -/
def programAll (ws : List (Nat × Bytes)) (c : Contents) : Contents :=
  ws.foldl (fun c w => programAt c w.1 w.2) c

theorem flashWrites_ok {ws : List (Nat × Bytes)} (h : ∀ i < ws.length, answers (d.time + i) = .ok) :
    flashWrites answers ws d = ⟨0, programAll ws d.flash, d.time + ws.length⟩ := by
  induction ws generalizing d with
  | nil => rfl
  | cons w ws ih =>
    obtain ⟨addr, src⟩ := w
    have hfirst := flashCall_ok (h 0 (Nat.succ_pos _)) addr src.length fun c => programAt c addr src
    have hrest := ih (d := ⟨programAt d.flash addr src, d.time + 1⟩) fun i hi => by
      have hnext := h (i + 1) (Nat.succ_lt_succ hi)
      rwa [Nat.add_comm i, ← Nat.add_assoc] at hnext
    rw [flashWrites, flashWrite, hfirst]
    simp only [ne_eq, not_true_eq_false, if_false]
    rw [hrest, List.length_cons, Nat.add_comm ws.length, Nat.add_assoc]
    rfl

theorem flashWrites_rc {ws : List (Nat × Bytes)} (h : (flashWrites answers ws d).rc = 0) :
    ∀ i < ws.length, answers (d.time + i) = .ok := by
  induction ws generalizing d with
  | nil => exact fun i hi => absurd hi (Nat.not_lt_zero i)
  | cons w ws ih =>
    obtain ⟨addr, src⟩ := w
    rw [flashWrites, flashWrite] at h
    by_cases hok : answers d.time = .ok
    · have hfirst := flashCall_ok hok addr src.length fun c => programAt c addr src
      simp only [hfirst, ne_eq, not_true_eq_false, if_false] at h
      intro i hi
      cases i with
      | zero => exact hok
      | succ i =>
        have hnext := ih h i (Nat.lt_of_succ_lt_succ hi)
        rwa [Nat.add_assoc, Nat.add_comm 1 i] at hnext
    · have hne := flashCall_rc_ne hok addr src.length fun c => programAt c addr src
      simp only [if_pos hne] at h
      exact absurd h hne

section Redund

variable {cfg : RedundConfig} {mallocOk : Bool} {s : RedundPlaces cfg} {e : Env}

theorem upData_eq (s : RedundPlaces cfg) :
    s.endAddrNew + 1 - (s.addrNew + cfg.envSize) = cfg.sectSize - cfg.envSize ∧
      cfg.sectSize - cfg.envSize ≠ 0 := by
  have hend := s.end_new_eq
  have hlt := cfg.lt
  rw [RedundConfig.envSize]
  omega

/-- An exit with another code is not taken. -/
theorem rc_of_ite {c : Prop} [Decidable c] {x y : SaveDone} (h : (if c then x else y).rc = 0)
    (hx : x.rc ≠ 0) : ¬ c ∧ y.rc = 0 := by
  by_cases hc : c
  · rw [if_pos hc] at h
    exact absurd h hx
  · rw [if_neg hc] at h
    exact ⟨hc, h⟩

theorem answer_of_rc (h : ¬ (flashCall answers pos len work d).rc ≠ 0) : answers d.time = .ok := by
  by_contra hok
  exact h (flashCall_rc_ne hok pos len work)

/-- A call that returns 0 has come to the restore. -/
theorem saveenvBody_rc (h : (saveenvBody answers mallocOk s e d).rc = 0) :
    mallocOk = true ∧ ∀ i < 7, answers (d.time + i) = .ok := by
  have hprotect := flashSectProtect_flash answers d
  have hprotect' := flashSectProtect_flash answers ⟨d.flash, d.time + 1⟩
  obtain ⟨hup, hne⟩ := upData_eq s
  rw [saveenvBody] at h
  obtain ⟨h₀, h⟩ := rc_of_ite h Nat.one_ne_zero
  rw [hprotect] at h
  obtain ⟨h₁, h⟩ := rc_of_ite h Nat.one_ne_zero
  rw [hprotect'] at h
  obtain ⟨hmalloc, h⟩ := rc_of_ite h Nat.one_ne_zero
  rw [hup] at hmalloc
  obtain ⟨h₂, h⟩ := rc_of_ite h Nat.one_ne_zero
  have hok₀ : answers d.time = .ok := answer_of_rc h₀
  have hok₁ : answers (d.time + 1) = .ok := answer_of_rc (d := ⟨d.flash, d.time + 1⟩) h₁
  have hok₂ : answers (d.time + 2) = .ok := answer_of_rc (d := ⟨d.flash, d.time + 1 + 1⟩) h₂
  rw [flashSectErase, flashCall_ok (d := ⟨d.flash, d.time + 1 + 1⟩) hok₂] at h
  have h₃ : (flashWrites answers (saveWrites s e)
      ⟨eraseAt d.flash s.addrNew (s.endAddrNew + 1 - s.addrNew), d.time + 3⟩).rc = 0 := by
    by_contra h₃
    rw [if_pos h₃] at h
    exact h₃ h
  have hwrites := flashWrites_rc h₃
  refine ⟨Bool.of_not_eq_false fun hfalse => hmalloc ⟨hne, hfalse⟩, fun i hi => ?_⟩
  rcases Nat.lt_or_ge i 3 with hlt | hge
  · obtain rfl | rfl | rfl : i = 0 ∨ i = 1 ∨ i = 2 := by omega
    · exact hok₀
    · exact hok₁
    · exact hok₂
  · have hanswer := hwrites (i - 3) (show i - 3 < 4 by omega)
    rwa [show d.time + 3 + (i - 3) = d.time + i by omega] at hanswer

/-- The flash behind the four writes. -/
def copied (s : RedundPlaces cfg) (e : Env) (flash : Contents) : Contents :=
  programAll (saveWrites s e) (eraseAt flash s.addrNew cfg.sectSize)

/-- A call that comes to the restore returns 0, whatever the restore answers. -/
theorem saveenvBody_ok (hmalloc : mallocOk = true) (h : ∀ i < 7, answers (d.time + i) = .ok) :
    (saveenvBody answers mallocOk s e d).rc = 0 ∧
      (saveenvBody answers mallocOk s e d).dev =
        (flashWrite answers (s.addrNew + cfg.envSize)
          (readAt d.flash (s.addrNew + cfg.envSize) (cfg.sectSize - cfg.envSize))
          ⟨copied s e d.flash, d.time + 7⟩).dev := by
  obtain ⟨hup, hne⟩ := upData_eq s
  have hrange : s.endAddrNew + 1 - s.addrNew = cfg.sectSize := by
    have := s.end_new_eq
    omega
  have h₀ : flashSectProtect answers d = ⟨0, d.flash, d.time + 1⟩ :=
    flashCall_ok (h 0 (by decide)) _ _ _
  have h₁ : flashSectProtect answers ⟨d.flash, d.time + 1⟩ = ⟨0, d.flash, d.time + 2⟩ :=
    flashCall_ok (d := ⟨d.flash, d.time + 1⟩) (h 1 (by decide)) _ _ _
  have h₂ : flashSectErase answers s.addrNew s.endAddrNew ⟨d.flash, d.time + 2⟩ =
      ⟨0, eraseAt d.flash s.addrNew (s.endAddrNew + 1 - s.addrNew), d.time + 3⟩ :=
    flashCall_ok (d := ⟨d.flash, d.time + 2⟩) (h 2 (by decide)) _ _ _
  have h₃ : flashWrites answers (saveWrites s e)
      ⟨eraseAt d.flash s.addrNew cfg.sectSize, d.time + 3⟩ =
        ⟨0, copied s e d.flash, d.time + 7⟩ :=
    flashWrites_ok (d := ⟨eraseAt d.flash s.addrNew cfg.sectSize, d.time + 3⟩) fun i hi => by
      have hi' : i < 4 := hi
      have hanswer := h (3 + i) (by omega)
      rwa [← Nat.add_assoc] at hanswer
  rw [hrange] at h₂
  rw [saveenvBody]
  simp only [h₀, h₁, hup, h₂, h₃, hmalloc, hne, ne_eq, not_true_eq_false, not_false_eq_true,
    Bool.true_eq_false, and_false, if_false, if_true]
  split
  · exact ⟨rfl, rfl⟩
  · exact ⟨rfl, rfl⟩

/-- The image that is wanted in flash: the environment, active. -/
def activeImage (e : Env) : Bytes := Env.image { e with flags := activeFlag }

theorem length_activeImage (hlen : e.data.length = cfg.dataSize) :
    (activeImage e).length = cfg.envSize := by
  rw [activeImage, Env.length_image, RedundConfig.envSize, hlen]

theorem readAt_programAt_blank {c : Contents} {data : Bytes}
    (h : ∀ a, InRange pos data.length a → c a = 0xFF) :
    readAt (programAt c pos data) pos data.length = data := by
  rw [programAt_blank h, readAt_storeAt]

theorem copied_eq (s : RedundPlaces cfg) (e : Env) (flash : Contents) : copied s e flash =
    programAt (programAt (programAt (programAt (eraseAt flash s.addrNew cfg.sectSize)
      (s.addrNew + envHeaderSize) e.data) s.addrNew (bytesOfWord e.crc)) (s.addr + 4)
      [obsoleteFlag]) (s.addrNew + 4) [activeFlag] := rfl

/-- The flag of the other copy is not in the sector. -/
theorem obsolete_apart (s : RedundPlaces cfg) {a : Nat} (ha : InRange s.addrNew cfg.sectSize a) :
    ¬ InRange (s.addr + 4) [obsoleteFlag].length a := by
  have hlt := cfg.lt
  have hapart := s.apart
  have hheader : envHeaderSize = 5 := rfl
  obtain ⟨hle, hup⟩ := ha
  rintro ⟨h₁, h₂⟩
  rw [List.length_singleton] at h₂
  omega

/-- A cell of the sector that none of the writes has. -/
theorem copied_blank (hlen : e.data.length = cfg.dataSize) (flash : Contents) {a : Nat}
    (ha : InRange (s.addrNew + cfg.envSize) (cfg.sectSize - cfg.envSize) a) :
    copied s e flash a = 0xFF := by
  have hlt := cfg.lt
  have hsize : cfg.envSize = envHeaderSize + cfg.dataSize := rfl
  have hheader : envHeaderSize = 5 := rfl
  obtain ⟨hle, hup⟩ := ha
  have hin : InRange s.addrNew cfg.sectSize a := ⟨by omega, by omega⟩
  have hdata : ¬ InRange (s.addrNew + envHeaderSize) e.data.length a := fun h => by
    have := h.2
    omega
  have hcrc : ¬ InRange s.addrNew (bytesOfWord e.crc).length a := fun h => by
    have := h.2
    rw [length_bytesOfWord] at this
    omega
  have hactive : ¬ InRange (s.addrNew + 4) [activeFlag].length a := fun h => by
    have := h.2
    rw [List.length_singleton] at this
    omega
  rw [copied_eq, programAt_of_not_inRange hactive, programAt_of_not_inRange (obsolete_apart s hin),
    programAt_of_not_inRange hcrc, programAt_of_not_inRange hdata]
  exact if_pos hin

/-- The data is written to erased cells, and then left alone. -/
theorem copied_data (hlen : e.data.length = cfg.dataSize) (flash : Contents) :
    readAt (copied s e flash) (s.addrNew + envHeaderSize) cfg.dataSize = e.data := by
  have hlt := cfg.lt
  have hapart := s.apart
  have hheader : envHeaderSize = 5 := rfl
  have hcrc : (bytesOfWord e.crc).length = 4 := length_bytesOfWord _
  have hone : [obsoleteFlag].length = 1 ∧ [activeFlag].length = 1 := ⟨rfl, rfl⟩
  rw [copied_eq, readAt_programAt_apart (by omega), readAt_programAt_apart (by omega),
    readAt_programAt_apart (by omega), ← hlen]
  refine readAt_programAt_blank fun a ha => if_pos ?_
  obtain ⟨h₁, h₂⟩ := ha
  exact ⟨by omega, by omega⟩

theorem copied_crc (hlen : e.data.length = cfg.dataSize) (flash : Contents) :
    readAt (copied s e flash) s.addrNew 4 = bytesOfWord e.crc := by
  have hlt := cfg.lt
  have hapart := s.apart
  have hheader : envHeaderSize = 5 := rfl
  have hone : [obsoleteFlag].length = 1 ∧ [activeFlag].length = 1 := ⟨rfl, rfl⟩
  rw [copied_eq, readAt_programAt_apart (by omega), readAt_programAt_apart (by omega),
    ← length_bytesOfWord e.crc]
  refine readAt_programAt_blank fun a ha => ?_
  obtain ⟨h₁, h₂⟩ := ha
  rw [length_bytesOfWord] at h₂
  rw [programAt_of_not_inRange fun hin => by
    have := hin.1
    omega]
  exact if_pos ⟨h₁, by omega⟩

theorem copied_flag (hlen : e.data.length = cfg.dataSize) (flash : Contents) :
    readAt (copied s e flash) (s.addrNew + 4) 1 = [activeFlag] := by
  have hlt := cfg.lt
  have hheader : envHeaderSize = 5 := rfl
  rw [copied_eq, ← List.length_singleton (a := activeFlag)]
  refine readAt_programAt_blank fun a ha => ?_
  obtain ⟨h₁, h₂⟩ := ha
  rw [List.length_singleton] at h₂
  have hin : InRange s.addrNew cfg.sectSize a := ⟨by omega, by omega⟩
  rw [programAt_of_not_inRange (obsolete_apart s hin), programAt_of_not_inRange fun h => by
    have := h.2
    rw [length_bytesOfWord] at this
    omega, programAt_of_not_inRange fun h => by
    have := h.1
    omega]
  exact if_pos hin

/-- The writes put the image together. -/
theorem copied_image (hlen : e.data.length = cfg.dataSize) (flash : Contents) :
    readAt (copied s e flash) s.addrNew cfg.envSize = activeImage e := by
  have hsum : cfg.envSize = 4 + (1 + cfg.dataSize) := by
    rw [RedundConfig.envSize, envHeaderSize]
    omega
  have hdata : readAt (copied s e flash) (s.addrNew + (4 + 1)) cfg.dataSize = e.data :=
    copied_data hlen flash
  rw [hsum, readAt_add, readAt_add, copied_crc hlen, copied_flag hlen, Nat.add_assoc s.addrNew 4 1,
    hdata]
  rfl

theorem saveenvRedund_result (s : RedundPlaces cfg) (e : Env) :
    (saveenvRedund answers mallocOk s e d).1.rc = (saveenvBody answers mallocOk s e d).rc ∧
      (saveenvRedund answers mallocOk s e d).1.dev.flash =
        (saveenvBody answers mallocOk s e d).dev.flash := by
  rw [saveenvRedund]
  refine ⟨rfl, ?_⟩
  dsimp only
  rw [flashSectProtect_flash, flashSectProtect_flash]

/-- What is in the sector behind the restore: the image, and behind it what the restore has left. -/
theorem restored_image (hlen : e.data.length = cfg.dataSize) (flash left : Contents) :
    readAt (fun a => if InRange (s.addrNew + cfg.envSize) (cfg.sectSize - cfg.envSize) a then left a
      else copied s e flash a) s.addrNew cfg.envSize = activeImage e := by
  rw [← copied_image (s := s) hlen flash]
  refine readAt_congr fun a ha => if_neg fun hin => ?_
  have hlt := ha.2
  have hge := hin.1
  omega

/-- A restore that does its work. -/
theorem restored_ok (hlen : e.data.length = cfg.dataSize) (flash : Contents) :
    programAt (copied s e flash) (s.addrNew + cfg.envSize)
      (readAt flash (s.addrNew + cfg.envSize) (cfg.sectSize - cfg.envSize)) =
    fun a => if InRange (s.addrNew + cfg.envSize) (cfg.sectSize - cfg.envSize) a then flash a
      else copied s e flash a := by
  have hsaved := length_readAt flash (s.addrNew + cfg.envSize) (cfg.sectSize - cfg.envSize)
  rw [programAt_blank fun a ha => copied_blank hlen flash (hsaved ▸ ha)]
  funext a
  rw [storeAt, hsaved]
  by_cases hin : InRange (s.addrNew + cfg.envSize) (cfg.sectSize - cfg.envSize) a
  · have hin' := hin
    obtain ⟨hle, hlt⟩ := hin'
    have hk : a - (s.addrNew + cfg.envSize) < cfg.sectSize - cfg.envSize := by omega
    rw [if_pos hin, if_pos hin, List.getD_eq_getElem?_getD, getElem?_readAt hk, Option.getD_some,
      Nat.add_sub_of_le hle]
  · rw [if_neg hin, if_neg hin]

/-- Two copies: exactly when a call that returns 0 has kept the rest of the sector. -/
theorem saveenvRedund_keeps_iff (answers : FlashAnswers) (mallocOk : Bool) (s : RedundPlaces cfg)
    (hlen : e.data.length = cfg.dataSize) (d : FlashDev) :
    Keeps s.addrNew cfg.sectSize s.addrNew (activeImage e) d
        (saveenvRedund answers mallocOk s e d).1 ↔ RestoreKept answers mallocOk s d := by
  obtain ⟨hrc, hflash⟩ :=
    @saveenvRedund_result answers d cfg mallocOk s e
  have hsize := cfg.lt
  have henv : cfg.envSize = envHeaderSize + cfg.dataSize := rfl
  have hsaved := length_readAt d.flash (s.addrNew + cfg.envSize) (cfg.sectSize - cfg.envSize)
  rw [Keeps, hrc, hflash, length_activeImage hlen]
  constructor
  · intro h hmalloc hok rc hne left hfail a ha
    obtain ⟨hzero, hdev⟩ := saveenvBody_ok (s := s) (e := e) hmalloc hok
    have hkept := (h hzero).2 a ⟨by have := ha.1; omega, by have := ha.2; omega⟩ fun hin => by
      have hlt := hin.2
      have hge := ha.1
      omega
    rw [hdev, flashWrite, flashCall_failed (d := ⟨copied s e d.flash, d.time + 7⟩) hfail, hsaved]
      at hkept
    exact (if_pos ha).symm.trans hkept
  · intro h hzero
    obtain ⟨hmalloc, hok⟩ := saveenvBody_rc hzero
    rw [(saveenvBody_ok hmalloc hok).2, flashWrite]
    have hrest : ∀ a, InRange s.addrNew cfg.sectSize a → ¬ InRange s.addrNew cfg.envSize a →
        InRange (s.addrNew + cfg.envSize) (cfg.sectSize - cfg.envSize) a := by
      rintro a ⟨hle, hlt⟩ hout
      have hge : s.addrNew + cfg.envSize ≤ a := Nat.not_lt.mp fun hlt' => hout ⟨hle, hlt'⟩
      exact ⟨hge, by omega⟩
    cases hanswer : answers (d.time + 7) with
    | ok =>
      rw [flashCall_ok (d := ⟨copied s e d.flash, d.time + 7⟩) hanswer, restored_ok hlen]
      exact ⟨restored_image hlen _ _, fun a ha hout => if_pos (hrest a ha hout)⟩
    | failed rc hne left =>
      rw [flashCall_failed (d := ⟨copied s e d.flash, d.time + 7⟩) hanswer, hsaved]
      refine ⟨restored_image hlen _ _, fun a ha hout => ?_⟩
      exact (if_pos (hrest a ha hout)).trans (h hmalloc hok rc hne left hanswer a (hrest a ha hout))

end Redund

/-- **The rest of the sector.**  One copy keeps it; and exactly when two do. -/
theorem saveenv_keeps_iff (answers : FlashAnswers) (d : FlashDev) (stack : Contents)
    (p : SinglePlace) (image : Vector UInt8 p.envSize) {cfg : RedundConfig} (mallocOk : Bool)
    (s : RedundPlaces cfg) (ram : RamEnv cfg) :
    Keeps p.sectAddr (2 ^ p.k) p.addr image.toList d
        (saveenvSingle answers stack p image.toList d) ∧
      (Keeps s.addrNew cfg.sectSize s.addrNew (activeImage ram.env) d
        (saveenvRedund answers mallocOk s ram.env d).1 ↔ RestoreKept answers mallocOk s d) :=
  ⟨saveenvSingle_keeps answers stack p Vector.length_toList d,
    saveenvRedund_keeps_iff answers mallocOk s ram.length_data d⟩

/-- A restore that fails: `saveenv` returns 0, and a byte of the sector is lost. -/
theorem saveenv_keeps_lostRest :
    ¬ ∀ (cfg : RedundConfig) (answers : FlashAnswers) (mallocOk : Bool) (s : RedundPlaces cfg)
      (ram : RamEnv cfg) (d : FlashDev),
      Keeps s.addrNew cfg.sectSize s.addrNew (activeImage ram.env) d
        (saveenvRedund answers mallocOk s ram.env d).1 := by
  intro h
  let answers : FlashAnswers := fun t =>
    if t = 7 then .failed 1 Nat.one_ne_zero (fun _ => 0xFF) else .ok
  have hkeeps := h ⟨1, 8, by decide⟩ answers true ⟨0, 8, 7, 15, rfl, rfl, by decide⟩
    ⟨⟨0, 0, [0]⟩, rfl⟩ ⟨fun _ => 0, 0⟩
  have hkept := (saveenvRedund_keeps_iff answers true _ rfl _).mp hkeeps rfl
    (fun i hi => if_neg (by
      change ¬ 0 + i = 7
      omega)) 1 Nat.one_ne_zero (fun _ => 0xFF) rfl 14 ⟨by decide, by decide⟩
  exact absurd hkept (by decide)

end UBoot.Common.EnvFlash
