import UBoot.Lib.Memory
import UBoot.Lib.Ring

/-!
# Circular buffers

`lib_generic/circbuf.c`.  The pointers `top`, `tail` and `end` are here the distances from `data`,
and every access to the bytes behind `data` is checked.  `buf_init` takes what `malloc` returns as
it is, since `assert` is empty in every build; so `data` may be `NULL`, and then no byte is behind
it.  With any other `data` the buffer is a queue that drops its oldest bytes
(`isQueue_iff`).
-/

namespace UBoot.LibGeneric

open UBoot.Lib

/-! ## The code -/

/-- `malloc`: the bytes of the area that it returns, none for `NULL`.  A request that is negative
as a `long` gets `NULL`. -/
structure Malloc where
  area : UInt32 → Option Bytes
  length : ∀ {n m}, area n = some m → m.length = n.toNat
  negative : ∀ {n : UInt32}, 2 ^ 31 ≤ n.toNat → area n = none

/-- `circbuf_t` -/
structure Circbuf where
  size : UInt32
  totalsize : UInt32
  top : Nat
  tail : Nat
  data : Bytes
  endp : Nat

/-- `buf_init` -/
def bufInit (M : Malloc) (size : UInt32) : Circbuf × Int :=
  ({ size := 0
     totalsize := size
     data := (M.area size).getD []
     top := 0
     tail := 0
     endp := size.toNat }, 1)

/-- The loop of `buf_pop` with `n` bytes to go: the bytes for `dest` and the last `p`. -/
def popLoop (buf : Circbuf) : Nat → Nat → Exec (Bytes × Nat)
  | 0, p => return ([], p)
  | n + 1, p => do
    let c ← load buf.data p
    let p := p + 1
    let p := if p = buf.endp then 0 else p
    let (dest, p) ← popLoop buf n p
    return (c :: dest, p)

/-- `buf_pop` -/
def bufPop (buf : Circbuf) (len : UInt32) : Exec (Circbuf × Bytes × Int) := do
  let len := if len > buf.size then buf.size else len
  let (dest, p) ← popLoop buf len.toNat buf.top
  return ({ buf with top := p, size := buf.size - len }, dest, len.toInt32.toInt)

/-- The loop of `buf_push` with `n` bytes to go. -/
def pushLoop (src : Nat → UInt8) : Nat → Nat → Circbuf → Nat → Exec (Circbuf × Nat)
  | 0, _, buf, p => return (buf, p)
  | n + 1, i, buf, p => do
    let data ← store buf.data p (src i)
    let buf := { buf with data := data }
    let p := p + 1
    let p := if p = buf.endp then 0 else p
    let buf :=
      if buf.size < buf.totalsize then { buf with size := buf.size + 1 }
      else
        let top := buf.top + 1
        { buf with top := if top = buf.endp then 0 else top }
    pushLoop src n (i + 1) buf p

/-- `buf_push` -/
def bufPush (buf : Circbuf) (src : Nat → UInt8) (len : UInt32) : Exec (Circbuf × Int) := do
  let (buf, p) ← pushLoop src len.toNat 0 buf buf.tail
  return ({ buf with tail := p }, len.toInt32.toInt)

inductive Call
  | push (src : Nat → UInt8) (len : UInt32)
  | pop (len : UInt32)

/-- Calls in a row: the bytes that each of them delivers, and its return value. -/
def runCalls : List Call → Circbuf → Exec (Circbuf × List (Bytes × Int))
  | [], buf => return (buf, [])
  | .push src len :: calls, buf => do
    let (buf, result) ← bufPush buf src len
    let (buf, results) ← runCalls calls buf
    return (buf, ([], result) :: results)
  | .pop len :: calls, buf => do
    let (buf, dest, result) ← bufPop buf len
    let (buf, results) ← runCalls calls buf
    return (buf, (dest, result) :: results)

/-! ## Queues -/

/-- The same calls of a queue of at most `cap` bytes. -/
def queueCalls (cap : Nat) : List Call → Bytes → List (Bytes × Int)
  | [], _ => []
  | .push src len :: calls, q =>
    ([], len.toInt32.toInt) ::
      queueCalls cap calls (lastOf cap (q ++ (List.range len.toNat).map src))
  | .pop len :: calls, q =>
    (q.take len.toNat, (min len.toNat q.length : Nat)) :: queueCalls cap calls (q.drop len.toNat)

/-- After `buf_init` any calls are those of a queue, no access is outside `data`, and `top` and
`tail` point into it. -/
def IsQueue (M : Malloc) (size : UInt32) : Prop :=
  ∀ calls, ∃ buf, runCalls calls (bufInit M size).1 = .ok (buf, queueCalls size.toNat calls []) ∧
    buf.top < size.toNat ∧ buf.tail < size.toNat

/-- The buffer has a queue in it. -/
structure Stores (n : Nat) (buf : Circbuf) (q : Bytes) : Prop where
  ring : Queued buf.data buf.top q
  length : buf.data.length = n
  signed : n < 2 ^ 31
  totalsize : buf.totalsize.toNat = n
  endp : buf.endp = n
  size : buf.size.toNat = q.length
  tail : buf.tail = wrapAt n buf.top q.length

section Simulation

variable {n : Nat} {buf : Circbuf} {q : Bytes}

/-! ## Taking bytes off -/

theorem popLoop_eq (hend : buf.endp = buf.data.length) {r : Bytes} {p : Nat}
    (h : Queued buf.data p (q ++ r)) :
    ∃ p', popLoop buf q.length p = .ok (q, p') ∧ Queued buf.data p' r ∧
      p' = wrapAt buf.data.length p q.length := by
  induction q generalizing p with
  | nil => exact ⟨p, rfl, h, (wrapAt_zero h.inside).symm⟩
  | cons c q ih =>
    have hload : load buf.data p = .ok c := by
      rw [load, h.head]
    obtain ⟨p', hloop, hrest, hp'⟩ := ih h.pop
    refine ⟨p', ?_, hrest, ?_⟩
    · rw [wrapNext] at hloop
      rw [List.length_cons, popLoop, hload, ok_bind, hend]
      simp only [hloop, ok_bind]
      rfl
    · rw [hp', wrapAt_next h.inside, List.length_cons]

theorem toInt_of_lt {len : UInt32} (h : len.toNat < 2 ^ 31) : len.toInt32.toInt = len.toNat := by
  have hbits : len.toInt32.toInt = len.toBitVec.toInt := rfl
  rw [hbits, BitVec.toInt_eq_toNat_of_lt, UInt32.toNat_toBitVec]
  rw [UInt32.toNat_toBitVec]
  omega

/-- What a call takes off is the front of the queue. -/
theorem bufPop_stores (h : Stores n buf q) (len : UInt32) :
    ∃ buf', bufPop buf len =
        .ok (buf', q.take len.toNat, ((min len.toNat q.length : Nat) : Int)) ∧
      Stores n buf' (q.drop len.toNat) := by
  obtain ⟨hring, hlength, hsigned, htotal, hend, hsize, htail⟩ := h
  have hfits := hring.fits
  -- "Cap to number of bytes in buffer"
  obtain ⟨k, hk, hcap⟩ : ∃ k, k = (if len > buf.size then buf.size else len) ∧
      k.toNat = min len.toNat q.length := by
    refine ⟨_, rfl, ?_⟩
    rw [← hsize]
    by_cases hlt : len > buf.size
    · have hle : buf.size.toNat < len.toNat := hlt
      rw [if_pos hlt]
      omega
    · have hle : ¬ buf.size.toNat < len.toNat := hlt
      rw [if_neg hlt]
      omega
  have htake : (q.take len.toNat).length = k.toNat := by
    rw [List.length_take, hcap]
  rw [← List.take_append_drop len.toNat q] at hring
  obtain ⟨p, hloop, hrest, hp⟩ := popLoop_eq (by rw [hend, hlength]) hring
  rw [htake] at hloop hp
  refine ⟨{ buf with top := p, size := buf.size - k }, ?_, ?_⟩
  · rw [bufPop, ← hk]
    simp only [hloop, ok_bind]
    rw [toInt_of_lt (by omega), hcap]
    rfl
  · refine ⟨hrest, hlength, hsigned, htotal, hend, ?_, ?_⟩
    · dsimp only
      rw [UInt32.toNat_sub_of_le _ _ (UInt32.le_iff_toNat_le.mpr (by omega)), List.length_drop]
      omega
    · dsimp only
      rw [htail, hp, hlength, List.length_drop, wrapAt_wrapAt]
      congr 1
      omega

/-! ## Putting bytes in -/

/-- One pass of the loop: `p` is where `tail` will be. -/
theorem pushLoop_succ {p : Nat} (h : Stores n { buf with tail := p } q) (src : Nat → UInt8)
    (k i : Nat) :
    ∃ buf' p', pushLoop src (k + 1) i buf p = pushLoop src k (i + 1) buf' p' ∧
      Stores n { buf' with tail := p' } (lastOf n (q ++ [src i])) := by
  obtain ⟨hring, hlength, hsigned, htotal, hend, hsize, htail⟩ := h
  dsimp only at hring hlength htotal hend hsize htail
  have hinside : buf.top < n := hlength ▸ hring.inside
  have hfits : q.length ≤ n := hlength ▸ hring.fits
  have hp : p < n := htail ▸ wrapAt_lt hinside q.length
  have hstore : store buf.data p (src i) = .ok (buf.data.set p (src i)) := by
    rw [store, if_pos (hlength ▸ hp)]
  have hpass : (if p + 1 = buf.endp then 0 else p + 1) = wrapNext n p := by
    rw [hend, wrapNext]
  rw [pushLoop, hstore, ok_bind]
  simp only [hpass]
  rcases Nat.lt_or_eq_of_le hfits with hroom | hfull
  · have hlt : buf.size < buf.totalsize := by
      rw [UInt32.lt_iff_toNat_lt]
      omega
    rw [if_pos hlt]
    refine ⟨_, _, rfl, ?_⟩
    have hlast : lastOf n (q ++ [src i]) = q ++ [src i] := by
      apply lastOf_of_le
      rw [List.length_append, List.length_singleton]
      exact hroom
    have hpush := hring.push (c := src i) (hlength ▸ hroom)
    rw [hlength, ← htail] at hpush
    rw [hlast]
    refine ⟨hpush, ?_, hsigned, htotal, hend, ?_, ?_⟩
    · dsimp only
      rw [List.length_set, hlength]
    · dsimp only
      rw [UInt32.toNat_add, hsize, UInt32.toNat_one, List.length_append, List.length_singleton]
      omega
    · dsimp only
      rw [htail, wrapNext_wrapAt hinside, List.length_append, List.length_singleton]
  · have hge : ¬ buf.size < buf.totalsize := by
      rw [UInt32.lt_iff_toNat_lt]
      omega
    rw [if_neg hge]
    refine ⟨_, _, rfl, ?_⟩
    -- the write pointer is at the oldest byte
    have hoverlap : p = buf.top := by
      rw [htail, hfull, wrapAt_length hinside]
    obtain ⟨a, r, rfl⟩ : ∃ a r, q = a :: r := List.exists_cons_of_length_pos (by omega)
    have hreplace := hring.replace (c := src i) (by rw [hfull, hlength])
    have hnext : (if buf.top + 1 = buf.endp then 0 else buf.top + 1) = wrapNext n buf.top := by
      rw [hend, wrapNext]
    rw [hlength, ← hoverlap] at hreplace
    have hsame : (r ++ [src i]).length = n := by
      rw [List.length_append, List.length_singleton, ← hfull, List.length_cons]
    rw [lastOf_concat_full hfull]
    refine ⟨?_, ?_, hsigned, htotal, hend, ?_, ?_⟩
    · dsimp only
      rw [hnext, ← hoverlap]
      exact hreplace
    · dsimp only
      rw [List.length_set, hlength]
    · dsimp only
      rw [hsize, hsame, hfull]
    · dsimp only
      rw [hnext, hsame, wrapAt_length (wrapNext_lt hinside), hoverlap]

theorem pushLoop_stores (src : Nat → UInt8) (k i : Nat) {p : Nat}
    (h : Stores n { buf with tail := p } q) :
    ∃ buf' p', pushLoop src k i buf p = .ok (buf', p') ∧
      Stores n { buf' with tail := p' } (lastOf n (q ++ (List.range' i k).map src)) := by
  induction k generalizing i buf p q with
  | zero =>
    have hle : q.length ≤ n := h.length ▸ h.ring.fits
    refine ⟨buf, p, rfl, ?_⟩
    rwa [List.range'_zero, List.map_nil, List.append_nil, lastOf_of_le hle]
  | succ k ih =>
    obtain ⟨buf₁, p₁, hstep, hstores⟩ := pushLoop_succ h src k i
    obtain ⟨buf', p', hloop, hrest⟩ := ih (i + 1) hstores
    refine ⟨buf', p', hstep.trans hloop, ?_⟩
    rwa [lastOf_append, List.append_assoc, List.singleton_append, ← List.map_cons,
      ← List.range'_succ] at hrest

theorem bufPush_stores (h : Stores n buf q) (src : Nat → UInt8) (len : UInt32) :
    ∃ buf', bufPush buf src len = .ok (buf', len.toInt32.toInt) ∧
      Stores n buf' (lastOf n (q ++ (List.range len.toNat).map src)) := by
  obtain ⟨buf', p', hloop, hstores⟩ := pushLoop_stores src len.toNat 0 (p := buf.tail) h
  rw [← List.range_eq_range'] at hstores
  refine ⟨{ buf' with tail := p' }, ?_, hstores⟩
  rw [bufPush, hloop, ok_bind]
  rfl

/-! ## Any calls -/

/-- The calls of the buffer are those of the queue in it. -/
theorem runCalls_stores (calls : List Call) (h : Stores n buf q) :
    ∃ buf' q', runCalls calls buf = .ok (buf', queueCalls n calls q) ∧ Stores n buf' q' := by
  induction calls generalizing buf q with
  | nil => exact ⟨buf, q, rfl, h⟩
  | cons call calls ih =>
    cases call with
    | push src len =>
      obtain ⟨buf₁, hpush, hstores⟩ := bufPush_stores h src len
      obtain ⟨buf', q', hrun, hrest⟩ := ih hstores
      refine ⟨buf', q', ?_, hrest⟩
      rw [runCalls, hpush, ok_bind]
      simp only [hrun, ok_bind, queueCalls]
      rfl
    | pop len =>
      obtain ⟨buf₁, hpop, hstores⟩ := bufPop_stores h len
      obtain ⟨buf', q', hrun, hrest⟩ := ih hstores
      refine ⟨buf', q', ?_, hrest⟩
      rw [runCalls, hpop, ok_bind]
      simp only [hrun, ok_bind, queueCalls]
      rfl

theorem bufInit_stores {M : Malloc} {size : UInt32} {m : Bytes} (hsize : 0 < size)
    (hmalloc : M.area size = some m) : Stores size.toNat (bufInit M size).1 [] := by
  have hpos : 0 < size.toNat := UInt32.lt_iff_toNat_lt.mp hsize
  have hlength := M.length hmalloc
  have hdata : (bufInit M size).1.data = m := by
    rw [bufInit, hmalloc]
    rfl
  refine ⟨queued_nil ?_, ?_, ?_, rfl, rfl, rfl, ?_⟩
  · rw [hdata, hlength]
    exact hpos
  · rw [hdata, hlength]
  · by_contra hge
    rw [M.negative (Nat.le_of_not_lt hge)] at hmalloc
    cases hmalloc
  · exact (wrapAt_zero hpos).symm

end Simulation

/-- The buffer is a queue exactly where `malloc` has returned an area. -/
theorem isQueue_iff (M : Malloc) {size : UInt32} (hsize : 0 < size) :
    IsQueue M size ↔ (M.area size).isSome := by
  constructor
  · intro hqueue
    obtain ⟨buf, hrun, -, -⟩ := hqueue [.push (fun _ => 0) 1]
    by_contra hnull
    have hdata : (bufInit M size).1.data = [] := by
      rw [bufInit, Option.not_isSome_iff_eq_none.mp hnull]
      rfl
    rw [runCalls, bufPush, UInt32.toNat_one, pushLoop, hdata] at hrun
    cases hrun
  · intro harea calls
    obtain ⟨m, hmalloc⟩ := Option.isSome_iff_exists.mp harea
    obtain ⟨buf, q, hrun, hstores⟩ := runCalls_stores calls (bufInit_stores hsize hmalloc)
    have hinside : buf.top < size.toNat := hstores.length ▸ hstores.ring.inside
    refine ⟨buf, hrun, hinside, ?_⟩
    rw [hstores.tail]
    exact wrapAt_lt hinside _

/-- A heap with room for every request that is not negative. -/
def zeroHeap : Malloc where
  area n := if n.toNat < 2 ^ 31 then some (List.replicate n.toNat 0) else none
  length := by
    intro n m h
    split_ifs at h
    cases h
    exact List.length_replicate
  negative := by
    intro n h
    exact if_neg (Nat.not_lt_of_le h)

theorem isQueue_two : IsQueue zeroHeap 2 := (isQueue_iff zeroHeap (by decide)).mpr rfl

/-- Of half of the address space `malloc` returns nothing, and `buf_init` nevertheless 1. -/
theorem bufInit_negative : (bufInit zeroHeap 0x80000000).2 = 1 ∧ ¬ IsQueue zeroHeap 0x80000000 := by
  refine ⟨rfl, ?_⟩
  intro hqueue
  obtain ⟨buf, hrun, -, -⟩ := hqueue [.push (fun _ => 0) 1]
  cases hrun

end UBoot.LibGeneric
