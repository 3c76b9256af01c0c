import UBoot.Fs.Jffs2
import UBoot.Lib.Run

/-!
# The window on NAND

`read_nand_cached` of `fs/jffs2/jffs2_1pass.c`.  One window is kept for all devices; its offset is
set before the read that fills it.

* `readNandCached_run`: in a run of calls in which every call that starts in the window finds there
  what the last read has loaded from its own device, the data of every call are right, and a call
  inside the device fails exactly if the windows that cover its range are not all inside.
* `not_right_otherDevice`: a call that starts in the window of another device gets its bytes.
-/

namespace UBoot.Fs.Jffs2

open UBoot.Lib UBoot.LibGeneric

/-- `NAND_PAGE_SIZE` -/
def nandPageSize : Nat := 512

/-- `NAND_CACHE_PAGES`, which a board may define. -/
structure CachePages where
  pages : Nat
  pos : 0 < pages
  small : pages * nandPageSize < 2 ^ 31

/-- `NAND_CACHE_SIZE` -/
def CachePages.size (conf : CachePages) : Nat := conf.pages * nandPageSize

/-- A device of `nand_info`. -/
structure NandDevice where
  size : Nat
  bytes : Mem

/-- How a call of `nand_read` fails, and what it leaves in the buffer. -/
structure ReadFailure where
  ret : Int
  retlen : Nat
  left : Mem
  ret_ne : ret ≠ 0

/-- A call of `nand_read`: it may fail also inside the device. -/
structure ReadAttempt where
  glitch : Bool
  failure : ReadFailure

/-- What `nand_read` returns, with `retlen` and the buffer. -/
def nandRead (dev : NandDevice) (off len : Nat) (attempt : ReadAttempt) (buf : Mem) :
    Int × Nat × Mem :=
  if off + len ≤ dev.size ∧ attempt.glitch = false then
    (0, len, fun i => if i < len then dev.bytes (off + i) else buf i)
  else (attempt.failure.ret, attempt.failure.retlen, attempt.failure.left)

/-- `nand_cache_off` and `nand_cache`.  The code does not keep from which device the window has been
loaded, or that it has not been. -/
structure NandCache where
  off : Nat
  cache : Option Mem
  loaded : Option Nat

/-- Before the first call. -/
def NandCache.boot : NandCache := ⟨2 ^ 32 - 1, none, none⟩

/-- A call of `read_nand_cached`, with `id->num` of `current_part`, what `malloc` gives for the
window, and the calls of `nand_read` by `bytes_read`. -/
structure NandCall where
  id : Nat
  off : Nat
  size : Nat
  buf : Mem
  heap : Option Mem
  attempts : Nat → ReadAttempt
  off_lt : off < 2 ^ 32
  size_lt : size < 2 ^ 32

/-- What a call returns, with the window and the buffer behind it. -/
structure NandResult where
  ret : Int
  cache : NandCache
  buf : Mem

section Code

variable (conf : CachePages) (devs : Nat → NandDevice) (lowMem : Mem)

/-- The byte is not in the window. -/
def NandCache.Misses (c : NandCache) (x : Nat) : Prop := x < c.off ∨ ulong (c.off + conf.size) ≤ x

instance (c : NandCache) (x : Nat) : Decidable (c.Misses conf x) :=
  inferInstanceAs (Decidable (_ ∨ _))

/-- The window moved to a byte; false if that fails. -/
def fillCache (call : NandCall) (c : NandCache) (x bytesRead : Nat) : Bool × NandCache :=
  let off := x / nandPageSize * nandPageSize
  match c.cache.or call.heap with
  | none => (false, ⟨off, none, none⟩)
  | some mem =>
    let (ret, retlen, mem) := nandRead (devs call.id) off conf.size (call.attempts bytesRead) mem
    if ret ≠ 0 ∨ retlen ≠ conf.size then (false, ⟨off, some mem, none⟩)
    else (true, ⟨off, some mem, some call.id⟩)

/-- The window made to hold a byte. -/
def reachByte (call : NandCall) (c : NandCache) (x bytesRead : Nat) : Bool × NandCache :=
  if c.Misses conf x then fillCache conf devs call c x bytesRead else (true, c)

/-- `memcpy` -/
def copyTo (buf : Mem) (pos : Nat) (src : Mem) (index len : Nat) : Mem := fun i =>
  if pos ≤ i ∧ i < pos + len then src (index + (i - pos)) else buf i

/-- `cpy_bytes` -/
def cpyBytes (c : NandCache) (x left : Nat) : Nat :=
  min (ulong (c.off + conf.size + (2 ^ 32 - x))) left

/-- The loop of `read_nand_cached`.  A round copies a byte at least.  Without memory for the window
`nand_cache` is 0. -/
def nandLoop (call : NandCall) : Nat → NandCache → Nat → Mem → NandResult
  | 0, c, bytesRead, buf => ⟨intOf bytesRead, c, buf⟩
  | fuel + 1, c, bytesRead, buf =>
    if bytesRead < call.size then
      let x := ulong (call.off + bytesRead)
      let (ok, c) := reachByte conf devs call c x bytesRead
      if ok then
        let len := cpyBytes conf c x (call.size - bytesRead)
        nandLoop call fuel c (ulong (bytesRead + len))
          (copyTo buf bytesRead (c.cache.getD lowMem) (ulong (x + (2 ^ 32 - c.off))) len)
      else ⟨-1, c, buf⟩
    else ⟨intOf bytesRead, c, buf⟩

/-- `read_nand_cached` -/
def readNandCached (c : NandCache) (call : NandCall) : NandResult :=
  nandLoop conf devs lowMem call call.size c 0 call.buf

/-- `get_fl_mem_nand`, with what `malloc` gives if there is no `ext_buf`. -/
def getFlMemNand (c : NandCache) (call : NandCall) (extBuf fresh : Option Mem) :
    Option Mem × NandCache :=
  match extBuf.or fresh with
  | none => (none, c)
  | some buf =>
    let r := readNandCached conf devs lowMem c { call with buf := buf }
    (if r.ret < 0 then none else some r.buf, r.cache)

/-! ## What is to be shown -/

/-- One call after the other. -/
def NandStep (c : NandCache) (call : NandCall) (c' : NandCache) : Prop :=
  c' = (readNandCached conf devs lowMem c call).cache

/-- The buffer holds the bytes of the device, and nothing else has been written. -/
def Delivered (c : NandCache) (call : NandCall) : Prop :=
  ∀ i, (readNandCached conf devs lowMem c call).buf i =
    if i < call.size then (devs call.id).bytes (call.off + i) else call.buf i

/-- The range lies inside the device, and `nand_read` fails only for ranges outside. -/
structure InsideFair (call : NandCall) : Prop where
  inside : call.off + call.size ≤ (devs call.id).size
  fair : ∀ bytesRead, (call.attempts bytesRead).glitch = false

/-- What a call is to do. -/
structure CallRight (c : NandCache) (call : NandCall) : Prop where
  data : 0 ≤ (readNandCached conf devs lowMem c call).ret → Delivered conf devs lowMem c call
  succeeds : InsideFair devs call → 0 ≤ (readNandCached conf devs lowMem c call).ret

/-- The call ends within 32 bits, and if it starts in the window, that has been loaded from its own
device. -/
structure Fresh (c : NandCache) (call : NandCall) : Prop where
  range : call.off + call.size ≤ 2 ^ 32
  own : 0 < call.size → ¬ c.Misses conf call.off → c.loaded = some call.id

/-- The first window of a call. -/
def windowStart (c : NandCache) (x : Nat) : Nat :=
  if c.Misses conf x then x / nandPageSize * nandPageSize else c.off

/-- The windows from one on, up to the end of a range, end inside the device. -/
def WindowsInside (w top size : Nat) : Prop :=
  ∀ k, w + k * conf.size < top → w + (k + 1) * conf.size ≤ size

/-- The number of bytes is an `int`, there is memory for the window, and the windows that cover the
range end inside the device. -/
structure Loadable (c : NandCache) (call : NandCall) : Prop where
  signed : call.size < 2 ^ 31
  memory : 0 < call.size → (c.cache.or call.heap).isSome
  windows : 0 < call.size → WindowsInside conf (windowStart conf c call.off) (call.off + call.size)
    (devs call.id).size
/-- The window holds the bytes of a device. -/
structure Holds (c : NandCache) (id : Nat) : Prop where
  aligned : nandPageSize ∣ c.off
  inside : c.off + conf.size ≤ (devs id).size
  allocated : c.cache.isSome
  bytes : ∀ i < conf.size, c.cache.getD lowMem i = (devs id).bytes (c.off + i)

/-- What is taken for loaded has been loaded. -/
def Coherent (c : NandCache) : Prop := ∀ id, c.loaded = some id → Holds conf devs lowMem c id

end Code

/-! ## A round -/

section Round

variable {conf : CachePages} {devs : Nat → NandDevice} {lowMem : Mem} {c : NandCache}
  {call : NandCall} {x n : Nat}

theorem CachePages.size_pos (conf : CachePages) : 0 < conf.size :=
  Nat.mul_pos conf.pos (by decide)

theorem CachePages.size_lt (conf : CachePages) : conf.size < 2 ^ 31 := conf.small

theorem CachePages.page_le (conf : CachePages) : nandPageSize ≤ conf.size :=
  Nat.le_mul_of_pos_left _ conf.pos

theorem page_start_le (x : Nat) : x / nandPageSize * nandPageSize ≤ x := Nat.div_mul_le_self x _

theorem lt_page_end (x : Nat) : x < x / nandPageSize * nandPageSize + nandPageSize := by
  rw [nandPageSize]
  omega

variable (lowMem) in
/-- A window that is loaded. -/
theorem fillCache_loads (hmem : (c.cache.or call.heap).isSome)
    (hfits : x / nandPageSize * nandPageSize + conf.size ≤ (devs call.id).size)
    (hglitch : (call.attempts n).glitch = false) :
    ∃ c', fillCache conf devs call c x n = (true, c') ∧ c'.off = x / nandPageSize * nandPageSize ∧
      c'.loaded = some call.id ∧ Holds conf devs lowMem c' call.id := by
  obtain ⟨mem, hmem⟩ := Option.isSome_iff_exists.mp hmem
  have hread : nandRead (devs call.id) (x / nandPageSize * nandPageSize) conf.size
      (call.attempts n) mem = (0, conf.size, fun i => if i < conf.size then
        (devs call.id).bytes (x / nandPageSize * nandPageSize + i) else mem i) :=
    if_pos ⟨hfits, hglitch⟩
  refine ⟨⟨x / nandPageSize * nandPageSize, some fun i => if i < conf.size then
    (devs call.id).bytes (x / nandPageSize * nandPageSize + i) else mem i, some call.id⟩,
    ?_, rfl, rfl, ?_⟩
  · rw [fillCache, hmem]
    dsimp only
    rw [hread]
    dsimp only
    rw [if_neg (by simp)]
  · exact ⟨Nat.dvd_mul_left _ _, hfits, rfl, fun i hi => if_pos hi⟩

/-- A window that is not. -/
theorem fillCache_fails (h : ¬ ((c.cache.or call.heap).isSome ∧
    x / nandPageSize * nandPageSize + conf.size ≤ (devs call.id).size ∧
      (call.attempts n).glitch = false)) :
    ∃ c', fillCache conf devs call c x n = (false, c') ∧ c'.loaded = none := by
  rw [fillCache]
  cases hmem : c.cache.or call.heap with
  | none => exact ⟨_, rfl, rfl⟩
  | some mem =>
    rw [hmem] at h
    have hread : nandRead (devs call.id) (x / nandPageSize * nandPageSize) conf.size
        (call.attempts n) mem = ((call.attempts n).failure.ret, (call.attempts n).failure.retlen,
          (call.attempts n).failure.left) := if_neg fun hok => h ⟨rfl, hok⟩
    dsimp only
    rw [hread]
    dsimp only
    rw [if_pos (.inl (call.attempts n).failure.ret_ne)]
    exact ⟨_, rfl, rfl⟩

/-- In a call that finds its own window, or none: what a round has before it copies. -/
theorem reachByte_spec (hc : Coherent conf devs lowMem c)
    (hown : ¬ c.Misses conf x → c.loaded = some call.id) :
    (∃ c', reachByte conf devs call c x n = (true, c') ∧ c'.off = windowStart conf c x ∧
      c'.loaded = some call.id ∧ Holds conf devs lowMem c' call.id ∧
      c'.off ≤ x ∧ x < c'.off + conf.size ∧ (c.cache.or call.heap).isSome) ∨
    ∃ c', reachByte conf devs call c x n = (false, c') ∧ c'.loaded = none ∧
      ((call.attempts n).glitch = false → (c.cache.or call.heap).isSome →
        ¬ windowStart conf c x + conf.size ≤ (devs call.id).size) := by
  rw [reachByte, windowStart]
  by_cases hmiss : c.Misses conf x
  · rw [if_pos hmiss, if_pos hmiss]
    by_cases hfits : (c.cache.or call.heap).isSome ∧
        x / nandPageSize * nandPageSize + conf.size ≤ (devs call.id).size ∧
          (call.attempts n).glitch = false
    · obtain ⟨c', hfill, hoff, hloaded, hholds⟩ :=
        fillCache_loads lowMem hfits.1 hfits.2.1 hfits.2.2
      have hle := page_start_le x
      have hlt := lt_page_end x
      have hpage := conf.page_le
      exact .inl ⟨c', hfill, hoff, hloaded, hholds, by omega, by omega, hfits.1⟩
    · obtain ⟨c', hfill, hloaded⟩ := fillCache_fails hfits
      exact .inr ⟨c', hfill, hloaded, fun hglitch hmem hle => hfits ⟨hmem, hle, hglitch⟩⟩
  · have hloaded := hown hmiss
    have hholds := hc _ hloaded
    rw [if_neg hmiss, if_neg hmiss]
    rw [NandCache.Misses, not_or, Nat.not_lt, Nat.not_le, ulong] at hmiss
    have hmem : (c.cache.or call.heap).isSome := by
      rw [Option.isSome_or, hholds.allocated]
      rfl
    exact .inl ⟨c, rfl, rfl, hloaded, hholds, hmiss.1,
      Nat.lt_of_lt_of_le hmiss.2 (Nat.mod_le _ _), hmem⟩

/-- The round copies up to the end of the window, or all that is left. -/
theorem cpyBytes_eq (left : Nat) (hle : c.off ≤ x) (hlt : x < c.off + conf.size)
    (hx : x < 2 ^ 32) : cpyBytes conf c x left = min (c.off + conf.size - x) left := by
  have hsize := conf.size_lt
  rw [cpyBytes, ulong]
  congr 1
  omega

/-- What the round copies are bytes of the device. -/
theorem copyTo_holds (h : Holds conf devs lowMem c call.id) {buf : Mem} {len : Nat}
    (hle : c.off ≤ call.off + n) (hlen : call.off + n + len ≤ c.off + conf.size)
    (hx : call.off + n < 2 ^ 32) (i : Nat) :
    copyTo buf n (c.cache.getD lowMem) (ulong (call.off + n + (2 ^ 32 - c.off))) len i =
      if n ≤ i ∧ i < n + len then (devs call.id).bytes (call.off + i) else buf i := by
  have hindex : ulong (call.off + n + (2 ^ 32 - c.off)) = call.off + n - c.off := by
    rw [ulong]
    omega
  rw [copyTo, hindex]
  split
  · next hi =>
    rw [h.bytes _ (by omega)]
    congr 1
    omega
  · rfl

theorem windowsInside_iff {w top size : Nat} (hw : w < top) :
    WindowsInside conf w top size ↔
      w + conf.size ≤ size ∧ WindowsInside conf (w + conf.size) top size := by
  have hnext (k : Nat) : w + conf.size + k * conf.size = w + (k + 1) * conf.size := by
    rw [Nat.succ_mul]
    omega
  constructor
  · intro h
    refine ⟨?_, fun k hk => ?_⟩
    · have hfirst := h 0 (by omega)
      omega
    · rw [hnext] at hk ⊢
      exact h (k + 1) hk
  · rintro ⟨hfirst, hrest⟩ k hk
    cases k with
    | zero => omega
    | succ k =>
      rw [← hnext] at hk ⊢
      exact hrest k hk

theorem windowsInside_of_le {w top size : Nat} (h : top ≤ w) : WindowsInside conf w top size :=
  fun k hk => absurd hk (by omega)

/-- Behind a window begins the next one. -/
theorem misses_next (c : NandCache) : c.Misses conf (c.off + conf.size) :=
  .inr (Nat.mod_le _ _)

theorem windowStart_next (h : nandPageSize ∣ c.off) :
    windowStart conf c (c.off + conf.size) = c.off + conf.size := by
  rw [windowStart, if_pos (misses_next c)]
  exact Nat.div_mul_cancel (Nat.dvd_add h (Nat.dvd_mul_left _ _))

end Round

/-! ## A call -/

section Call

variable {conf : CachePages} {devs : Nat → NandDevice} {lowMem : Mem} {c : NandCache}
  {call : NandCall} {n fuel : Nat}

/-- What is left of a call, from so many bytes on. -/
structure Served (conf : CachePages) (devs : Nat → NandDevice) (lowMem : Mem) (c : NandCache)
    (call : NandCall) (n : Nat) (buf : Mem) (r : NandResult) : Prop where
  coherent : Coherent conf devs lowMem r.cache
  data : 0 ≤ r.ret → ∀ i, r.buf i =
    if n ≤ i ∧ i < call.size then (devs call.id).bytes (call.off + i) else buf i
  loads : (∀ k, (call.attempts k).glitch = false) → (0 ≤ r.ret ↔ call.size < 2 ^ 31 ∧
    (n < call.size → (c.cache.or call.heap).isSome ∧
      WindowsInside conf (windowStart conf c (call.off + n)) (call.off + call.size)
        (devs call.id).size))

theorem served_done (hc : Coherent conf devs lowMem c) {buf : Mem} :
    Served conf devs lowMem c call call.size buf ⟨intOf call.size, c, buf⟩ where
  coherent := hc
  data _ i := by rw [if_neg (by omega)]
  loads _ := by
    rw [intOf_nonneg call.size_lt]
    exact ⟨fun h => ⟨h, fun hlt => absurd hlt (Nat.lt_irrefl _)⟩, fun h => h.1⟩

theorem nandLoop_served (hrange : call.off + call.size ≤ 2 ^ 32) : ∀ {fuel n : Nat} {c : NandCache}
    {buf : Mem}, call.size ≤ fuel + n → n ≤ call.size → Coherent conf devs lowMem c →
      (n < call.size → ¬ c.Misses conf (call.off + n) → c.loaded = some call.id) →
        Served conf devs lowMem c call n buf (nandLoop conf devs lowMem call fuel c n buf) := by
  intro fuel
  induction fuel with
  | zero =>
    intro n c buf hfuel hn hc hown
    obtain rfl : n = call.size := by omega
    exact served_done hc
  | succ fuel ih =>
    intro n c buf hfuel hn hc hown
    rw [nandLoop]
    by_cases hlt : n < call.size
    swap
    · obtain rfl : n = call.size := by omega
      rw [if_neg hlt]
      exact served_done hc
    have hx : ulong (call.off + n) = call.off + n := ulong_of_lt (by omega)
    rw [if_pos hlt, hx]
    rcases reachByte_spec (n := n) hc (hown hlt) with
      ⟨c', hreach, hoff, hloaded, hholds, hle, hend, hmem⟩ | ⟨c', hreach, hloaded, hfails⟩
    · have hlen := cpyBytes_eq (call.size - n) hle hend (by omega)
      obtain ⟨len, hlen'⟩ : ∃ len, len = cpyBytes conf c' (call.off + n) (call.size - n) := ⟨_, rfl⟩
      rw [← hlen'] at hlen
      have hsize := call.size_lt
      have hn' : ulong (n + len) = n + len := ulong_of_lt (by omega)
      dsimp only
      rw [hreach]
      dsimp only
      rw [if_pos rfl, ← hlen', hn']
      have hnext : n + len < call.size → call.off + (n + len) = c'.off + conf.size := by omega
      have hrest := @ih (n + len) c'
        (copyTo buf n (c'.cache.getD lowMem) (ulong (call.off + n + (2 ^ 32 - c'.off))) len)
        (by omega) (by omega) (fun id hid => by
          rw [hloaded] at hid
          cases hid
          exact hholds) (fun hlt' hhit => by
          rw [hnext hlt'] at hhit
          exact absurd (misses_next c') hhit)
      refine ⟨hrest.coherent, fun hret i => ?_, fun hfair => ?_⟩
      · rw [hrest.data hret i]
        by_cases hi : n + len ≤ i ∧ i < call.size
        · rw [if_pos hi, if_pos (by omega)]
        · rw [if_neg hi, copyTo_holds hholds hle (by omega) (by omega)]
          split <;> split <;> first | rfl | omega
      · rw [hrest.loads hfair]
        refine and_congr_right fun _ => ?_
        rw [← hoff]
        have hfirst : WindowsInside conf c'.off (call.off + call.size) (devs call.id).size ↔ _ :=
          windowsInside_iff (by omega)
        constructor
        · intro h _
          refine ⟨hmem, hfirst.mpr ⟨hholds.inside, ?_⟩⟩
          by_cases hlt' : n + len < call.size
          · have hwindows := (h hlt').2
            rwa [hnext hlt', windowStart_next hholds.aligned] at hwindows
          · exact windowsInside_of_le (by omega)
        · intro h hlt'
          rw [hnext hlt', windowStart_next hholds.aligned, Option.isSome_or,
            hholds.allocated]
          exact ⟨rfl, (hfirst.mp (h hlt).2).2⟩
    · dsimp only
      rw [hreach]
      dsimp only
      rw [if_neg Bool.false_ne_true]
      have hret : ¬ (0 : Int) ≤ -1 := by decide
      refine ⟨fun id hid => ?_, fun h => absurd h hret, fun hfair => ?_⟩
      · rw [hloaded] at hid
        cases hid
      · refine iff_of_false hret ?_
        rintro ⟨-, h⟩
        obtain ⟨hmem, hwindows⟩ := h hlt
        refine hfails (hfair n) hmem ?_
        have hstart : windowStart conf c (call.off + n) < call.off + call.size := by
          rw [windowStart]
          split
          · have hle := page_start_le (call.off + n)
            omega
          · next hhit =>
            rw [NandCache.Misses, not_or] at hhit
            omega
        exact ((windowsInside_iff hstart).mp hwindows).1

theorem readNandCached_served (hc : Coherent conf devs lowMem c) (hfresh : Fresh conf c call) :
    Served conf devs lowMem c call 0 call.buf (readNandCached conf devs lowMem c call) :=
  nandLoop_served hfresh.range (Nat.le_refl _) (Nat.zero_le _) hc hfresh.own

end Call

/-! ## A run -/

section Run

variable {conf : CachePages} {devs : Nat → NandDevice} {lowMem : Mem} {c : NandCache}
  {tr : List (NandCache × NandCall)}

theorem Served.callRight_iff {call : NandCall}
    (h : Served conf devs lowMem c call 0 call.buf (readNandCached conf devs lowMem c call)) :
    CallRight conf devs lowMem c call ↔ (InsideFair devs call → Loadable conf devs c call) := by
  have hloads (hin : InsideFair devs call) :
      0 ≤ (readNandCached conf devs lowMem c call).ret ↔ Loadable conf devs c call := by
    rw [h.loads hin.fair]
    exact ⟨fun hl => ⟨hl.1, fun hpos => (hl.2 hpos).1, fun hpos => (hl.2 hpos).2⟩,
      fun hl => ⟨hl.signed, fun hpos => ⟨hl.memory hpos, hl.windows hpos⟩⟩⟩
  constructor
  · intro hright hin
    exact (hloads hin).mp (hright.succeeds hin)
  · intro hload
    refine ⟨fun hret i => ?_, fun hin => (hloads hin).mpr (hload hin)⟩
    rw [h.data hret i]
    by_cases hi : i < call.size
    · rw [if_pos ⟨Nat.zero_le _, hi⟩, if_pos hi]
    · rw [if_neg fun hn => hi hn.2, if_neg hi]

theorem coherent_boot : Coherent conf devs lowMem .boot := by
  intro id hid
  cases hid

/-- Where every call that starts in the window finds its own device there, all is right exactly if
the calls inside a device have all their windows in it. -/
theorem readNandCached_run (hrun : Run (NandStep conf devs lowMem) .boot tr c)
    (hfresh : ∀ p ∈ tr, Fresh conf p.1 p.2) :
    (∀ p ∈ tr, CallRight conf devs lowMem p.1 p.2) ↔
      ∀ p ∈ tr, InsideFair devs p.2 → Loadable conf devs p.1 p.2 := by
  have hserved := hrun.history (fun tr c => Coherent conf devs lowMem c ∧ ∀ p ∈ tr,
      Served conf devs lowMem p.1 p.2 0 p.2.buf (readNandCached conf devs lowMem p.1 p.2))
    (Fresh conf) (by
      rintro tr c call c' ⟨hc, htr⟩ hcall rfl
      have hserved := readNandCached_served hc hcall
      refine ⟨hserved.coherent, fun p hp => ?_⟩
      rcases List.mem_append.mp hp with hp | hp
      · exact htr p hp
      · rw [List.mem_singleton.mp hp]
        exact hserved)
    ⟨coherent_boot, fun p hp => absurd hp List.not_mem_nil⟩ hfresh
  exact forall₂_congr fun p hp => (hserved.2 p hp).callRight_iff

end Run

/-! ## Two devices -/

def sixteenPages : CachePages := ⟨16, by decide, by decide⟩

/-- The first device is all zeros, the others are all ones. -/
def zerosAndOnes (id : Nat) : NandDevice := ⟨0x4000, fun _ => if id = 0 then 0 else 0xff⟩

theorem zero_lt_word : 0 < 2 ^ 32 := by decide

/-- One byte from the start of a device. -/
def firstByte (id : Nat) : NandCall where
  id := id
  off := 0
  size := 1
  buf := fun _ => 0
  heap := some fun _ => 0
  attempts _ := ⟨false, -1, 0, fun _ => 0, by decide⟩
  off_lt := zero_lt_word
  size_lt := by decide

/-- The window after that. -/
def behindFirstByte (c : NandCache) (id : Nat) : NandCache :=
  (readNandCached sixteenPages zerosAndOnes (fun _ => 0) c (firstByte id)).cache

/-- The same device twice. -/
theorem readNandCached_run_same :
    CallRight sixteenPages zerosAndOnes (fun _ => 0) .boot (firstByte 0) ∧
      CallRight sixteenPages zerosAndOnes (fun _ => 0) (behindFirstByte .boot 0) (firstByte 0) := by
  have hwindows (c : NandCache) (hw : windowStart sixteenPages c 0 = 0) :
      WindowsInside sixteenPages (windowStart sixteenPages c 0) 1 0x4000 := by
    intro k hk
    rw [hw] at hk ⊢
    change 0 + k * 8192 < 1 at hk
    change 0 + (k + 1) * 8192 ≤ 0x4000
    omega
  have hright : ∀ p ∈ [(NandCache.boot, firstByte 0), (behindFirstByte .boot 0, firstByte 0)],
      CallRight sixteenPages zerosAndOnes (fun _ => 0) p.1 p.2 := by
    refine (readNandCached_run (.tail (.tail .refl rfl) rfl) ?_).mpr ?_
    · refine List.forall_mem_cons.mpr ⟨⟨by decide, fun _ h => ?_⟩,
        List.forall_mem_singleton.mpr ⟨by decide, fun _ _ => by decide⟩⟩
      exact absurd h (by decide)
    · exact List.forall_mem_cons.mpr
        ⟨fun _ => ⟨by decide, fun _ => rfl, fun _ => hwindows _ (by decide)⟩,
          List.forall_mem_singleton.mpr fun _ =>
            ⟨by decide, fun _ => by decide, fun _ => hwindows _ (by decide)⟩⟩
  exact ⟨hright (.boot, firstByte 0) List.mem_cons_self,
    hright (behindFirstByte .boot 0, firstByte 0) (List.mem_cons_of_mem _ List.mem_cons_self)⟩

/-- The other device gets the bytes of the first one. -/
theorem not_right_otherDevice : ¬ ∀ (conf : CachePages) (devs : Nat → NandDevice) (lowMem : Mem)
    (tr : List (NandCache × NandCall)) (c : NandCache), Run (NandStep conf devs lowMem) .boot tr c →
      ∀ p ∈ tr, CallRight conf devs lowMem p.1 p.2 := by
  intro hall
  have hright := hall sixteenPages zerosAndOnes (fun _ => 0)
    [(NandCache.boot, firstByte 0), (behindFirstByte .boot 0, firstByte 1)] _
    (.tail (.tail .refl rfl) rfl) (behindFirstByte .boot 0, firstByte 1)
    (List.mem_cons_of_mem _ List.mem_cons_self)
  have hbyte := hright.data (by decide) 0
  exact absurd hbyte (by decide)

end UBoot.Fs.Jffs2
