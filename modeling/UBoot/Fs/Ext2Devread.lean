import UBoot.Fs.Ext2Blocks

/-!
# What a read of the device asks for

`ext2fs_devread` with a log of its calls of `block_read`: the first sector and the number of
sectors.  Without the log it is `ext2fsDevread` (`loggedDevread_transfer`).

The range is cut into the rest of a sector, whole sectors and the beginning of a sector
(`neededCalls`); the calls are these in this order, as far as it comes
(`loggedDevread_calls`).  The result of the last one is not looked at if there are no whole sectors,
and only there a failure is not reported (`devread_right_iff`).
-/

namespace UBoot.Fs.Ext2

open UBoot.Lib UBoot.LibGeneric

/-- A read with its calls. -/
structure LoggedTransfer where
  transfer : Transfer
  calls : List (Nat × Nat)

/-- "read sector aligned part", behind these calls. -/
def loggedAligned (vol : Volume) (env : Env) (time sector len : Nat) (buf : Contents) (addr : Nat)
    (calls : List (Nat × Nat)) : LoggedTransfer :=
  if len = 0 then ⟨⟨true, buf, time⟩, calls⟩
  else
    let blockLen := len / 512 * 512
    if blockLen = 0 then
      let calls := calls ++ [(sector, 1)]
      let (_, p) := blockRead vol env time sector 1 env.stack 0
      ⟨⟨true, storeAt buf addr (readAt p 0 len), time + 1⟩, calls⟩
    else
      let calls := calls ++ [(sector, blockLen / 512)]
      match blockRead vol env time sector (blockLen / 512) buf addr with
      | (false, buf) => ⟨⟨false, buf, time + 1⟩, calls⟩
      | (true, buf) =>
        if len - blockLen = 0 then ⟨⟨true, buf, time + 1⟩, calls⟩
        else
          let calls := calls ++ [(sector + blockLen / 512, 1)]
          match blockRead vol env (time + 1) (sector + blockLen / 512) 1 env.stack 0 with
          | (false, _) => ⟨⟨false, buf, time + 2⟩, calls⟩
          | (true, secBuf) =>
            ⟨⟨true, storeAt buf (addr + blockLen) (readAt secBuf 0 (len - blockLen)), time + 2⟩,
              calls⟩

/-- `ext2fs_devread` -/
def loggedDevread (vol : Volume) (env : Env) (time : Nat) (sector : Int) (byteOffset byteLen : Nat)
    (buf : Contents) (addr : Nat) : LoggedTransfer :=
  if sector < 0 ∨ vol.partSize ≤ sector.toNat + (byteOffset + byteLen - 1) / 512 then
    ⟨⟨false, buf, time⟩, []⟩
  else
    let sector := sector.toNat + byteOffset / 512
    let byteOffset := byteOffset % 512
    if byteOffset = 0 then loggedAligned vol env time sector byteLen buf addr []
    else
      match blockRead vol env time sector 1 env.stack 0 with
      | (false, _) => ⟨⟨false, buf, time + 1⟩, [(sector, 1)]⟩
      | (true, secBuf) =>
        let n := min (512 - byteOffset) byteLen
        loggedAligned vol env (time + 1) (sector + 1) (byteLen - n)
          (storeAt buf addr (readAt secBuf byteOffset n)) (addr + n) [(sector, 1)]

/-- The calls that whole sectors and the beginning of a sector need. -/
def alignedCalls (sector len : Nat) : List (Nat × Nat) :=
  (if len / 512 = 0 then [] else [(sector, len / 512)]) ++
    if len % 512 = 0 then [] else [(sector + len / 512, 1)]

/-- The calls that a range needs. -/
def neededCalls (sector off len : Nat) : List (Nat × Nat) :=
  if off % 512 = 0 then alignedCalls (sector + off / 512) len
  else (sector + off / 512, 1) ::
    alignedCalls (sector + off / 512 + 1) (len - min (512 - off % 512) len)

/-- The byte range lies in the partition. -/
def Inside (vol : Volume) (sector off len : Nat) : Prop :=
  sector * 512 + off + len ≤ vol.partSize * 512

section Devread

variable {vol : Volume} {env : Env} {time sector off len addr : Nat} {buf : Contents}
  {calls : List (Nat × Nat)}

/-! ## The log -/

theorem loggedAligned_transfer :
    (loggedAligned vol env time sector len buf addr calls).transfer =
      devreadAligned vol env time sector len buf addr := by
  unfold loggedAligned devreadAligned
  by_cases hlen : len = 0
  · rw [if_pos hlen, if_pos hlen]
  rw [if_neg hlen, if_neg hlen]
  dsimp only
  by_cases hblock : len / 512 * 512 = 0
  · rw [if_pos hblock, if_pos hblock]
  rw [if_neg hblock, if_neg hblock]
  rcases blockRead vol env time sector (len / 512 * 512 / 512) buf addr with ⟨_ | _, buf'⟩
  · rfl
  dsimp only
  by_cases hrest : len - len / 512 * 512 = 0
  · rw [if_pos hrest, if_pos hrest]
  rw [if_neg hrest, if_neg hrest]
  rcases blockRead vol env (time + 1) (sector + len / 512 * 512 / 512) 1 env.stack 0 with ⟨_ | _, p⟩
  · rfl
  · rfl

theorem loggedDevread_transfer (s : Int) :
    (loggedDevread vol env time s off len buf addr).transfer =
      ext2fsDevread vol env time s off len buf addr := by
  unfold loggedDevread ext2fsDevread
  by_cases hout : s < 0 ∨ vol.partSize ≤ s.toNat + (off + len - 1) / 512
  · rw [if_pos hout, if_pos hout]
  rw [if_neg hout, if_neg hout]
  dsimp only
  by_cases haligned : off % 512 = 0
  · rw [if_pos haligned, if_pos haligned]
    exact loggedAligned_transfer
  rw [if_neg haligned, if_neg haligned]
  rcases blockRead vol env time (s.toNat + off / 512) 1 env.stack 0 with ⟨_ | _, p⟩
  · rfl
  · exact loggedAligned_transfer

theorem alignedCalls_zero (sector : Nat) : alignedCalls sector 0 = [] := by
  rw [alignedCalls, Nat.zero_div, Nat.zero_mod, if_pos rfl, if_pos rfl, List.append_nil]

/-- What is read of aligned sectors: the result, and the calls. -/
theorem loggedAligned_spec :
    ((loggedAligned vol env time sector len buf addr calls).transfer.ok = true ↔
      (512 ≤ len → ∀ k < (alignedCalls sector len).length, env.reads (time + k) = .ok)) ∧
    (loggedAligned vol env time sector len buf addr calls).calls <+:
      calls ++ alignedCalls sector len := by
  have hdiv : len / 512 * 512 / 512 = len / 512 := Nat.mul_div_cancel _ (by decide)
  unfold loggedAligned alignedCalls
  by_cases hlen : len = 0
  · rw [if_pos hlen]
    exact ⟨iff_of_true rfl fun h => by omega, List.prefix_append _ _⟩
  rw [if_neg hlen]
  dsimp only
  by_cases hblock : len / 512 = 0
  · rw [if_pos (by omega), if_pos hblock, if_neg (by omega), hblock]
    exact ⟨iff_of_true rfl fun h => by omega, List.prefix_refl _⟩
  rw [if_neg (by omega), if_neg hblock, hdiv]
  by_cases hok : env.reads time = .ok
  swap
  · obtain ⟨got, -, hread⟩ := blockRead_false hok vol sector (len / 512) buf addr
    rw [hread]
    refine ⟨iff_of_false Bool.false_ne_true fun h => hok (h (by omega) 0 ?_), ?_⟩
    · rw [List.length_append]
      exact Nat.add_pos_left Nat.one_pos _
    · rw [← List.append_assoc]
      exact List.prefix_append _ _
  rw [blockRead_ok hok]
  dsimp only
  by_cases hrest : len % 512 = 0
  · rw [if_pos (by omega), if_pos hrest]
    refine ⟨iff_of_true rfl fun _ k hk => ?_, List.prefix_refl _⟩
    obtain rfl : k = 0 := Nat.lt_one_iff.mp hk
    exact hok
  rw [if_neg (by omega), if_neg hrest]
  by_cases hok' : env.reads (time + 1) = .ok
  · rw [blockRead_ok hok']
    refine ⟨iff_of_true rfl fun _ k hk => ?_, ?_⟩
    · obtain rfl | rfl : k = 0 ∨ k = 1 := by
        change k < 2 at hk
        omega
      · exact hok
      · exact hok'
    · exact ⟨[], by rw [List.append_nil, List.append_assoc]⟩
  · obtain ⟨got, -, hread⟩ := blockRead_false hok' vol (sector + len / 512) 1 env.stack 0
    rw [hread]
    refine ⟨iff_of_false Bool.false_ne_true fun h => hok' (h (by omega) 1 Nat.one_lt_two), ?_⟩
    exact ⟨[], by rw [List.append_nil, List.append_assoc]⟩

/-- The calls are those that the range needs, as far as it comes. -/
theorem loggedDevread_calls (hin : ¬ ((sector : Int) < 0 ∨
      vol.partSize ≤ (sector : Int).toNat + (off + len - 1) / 512)) :
    (loggedDevread vol env time sector off len buf addr).calls <+: neededCalls sector off len := by
  unfold loggedDevread neededCalls
  rw [if_neg hin, Int.toNat_natCast]
  dsimp only
  by_cases haligned : off % 512 = 0
  · rw [if_pos haligned, if_pos haligned]
    exact loggedAligned_spec.2
  rw [if_neg haligned, if_neg haligned]
  by_cases hok : env.reads time = .ok
  · rw [blockRead_ok hok]
    exact loggedAligned_spec.2
  · obtain ⟨got, -, hread⟩ := blockRead_false hok vol (sector + off / 512) 1 env.stack 0
    rw [hread]
    exact List.prefix_append [_] _

/-- Behind the rest of a sector. -/
theorem behind_head {first start rest size : Nat} (h : first + off + len ≤ size)
    (hoff : start + rest = off) (hrest : rest < 512) (hmore : ¬ len ≤ 512 - rest) :
    first + start + 512 + (len - (512 - rest)) ≤ size := by
  omega

/-- All that a range in the partition needs lies in the partition. -/
theorem neededCalls_inside (hlen : 0 < len) (hin : Inside vol sector off len) {c : Nat × Nat}
    (hc : c ∈ neededCalls sector off len) : c.1 + c.2 ≤ vol.partSize := by
  have haligned : ∀ {s n : Nat}, s * 512 + n ≤ vol.partSize * 512 → c ∈ alignedCalls s n →
      c.1 + c.2 ≤ vol.partSize := by
    intro s n hle hmem
    unfold alignedCalls at hmem
    rcases List.mem_append.mp hmem with h | h
    · split at h
      · exact absurd h List.not_mem_nil
      · obtain rfl := List.mem_singleton.mp h
        dsimp only
        omega
    · split at h
      · exact absurd h List.not_mem_nil
      · obtain rfl := List.mem_singleton.mp h
        dsimp only
        omega
  unfold Inside at hin
  unfold neededCalls at hc
  split at hc
  · refine haligned ?_ hc
    rw [Nat.add_mul]
    omega
  · rcases List.mem_cons.mp hc with rfl | hc
    · dsimp only
      omega
    · by_cases hmore : len ≤ 512 - off % 512
      · rw [Nat.min_eq_right hmore, Nat.sub_self, alignedCalls_zero] at hc
        exact absurd hc List.not_mem_nil
      · rw [Nat.min_eq_left (by omega)] at hc
        refine haligned ?_ hc
        rw [Nat.add_mul, Nat.add_mul, Nat.one_mul]
        exact behind_head hin (Nat.div_add_mod' off 512) (Nat.mod_lt off (by decide)) hmore

/-- When 1 is returned for a range in the partition. -/
theorem ext2fsDevread_ok_iff (hshort : ShortOk env time off len)
    (hin : ¬ ((sector : Int) < 0 ∨
      vol.partSize ≤ (sector : Int).toNat + (off + len - 1) / 512)) :
    (ext2fsDevread vol env time sector off len buf addr).ok = true ↔
      ∀ k < (neededCalls sector off len).length, env.reads (time + k) = .ok := by
  -- a piece of less than a sector needs one call at most, which has not failed
  have hpiece : ∀ {t s n}, n < 512 → (0 < n → env.reads t = .ok) →
      ∀ k < (alignedCalls s n).length, env.reads (t + k) = .ok := by
    intro t s n hn hread k hk
    unfold alignedCalls at hk
    rw [if_pos (Nat.div_eq_of_lt hn), List.nil_append] at hk
    split at hk
    · exact absurd hk (Nat.not_lt_zero k)
    · obtain rfl : k = 0 := Nat.lt_one_iff.mp hk
      exact hread (by omega)
  have hiff : ∀ {t s n}, (n < 512 → 0 < n → env.reads t = .ok) →
      ((512 ≤ n → ∀ k < (alignedCalls s n).length, env.reads (t + k) = .ok) ↔
        ∀ k < (alignedCalls s n).length, env.reads (t + k) = .ok) := by
    intro t s n hread
    refine ⟨fun h => ?_, fun h _ => h⟩
    by_cases hn : n < 512
    · exact hpiece hn (hread hn)
    · exact h (Nat.le_of_not_lt hn)
  rw [← loggedDevread_transfer, loggedDevread, neededCalls, if_neg hin, Int.toNat_natCast]
  unfold ShortOk at hshort
  dsimp only
  by_cases haligned : off % 512 = 0
  · rw [if_pos haligned] at hshort
    rw [if_pos haligned, if_pos haligned, loggedAligned_spec.1, hiff fun hn hpos => hshort hpos hn]
  rw [if_neg haligned] at hshort
  rw [if_neg haligned, if_neg haligned]
  by_cases hok : env.reads time = .ok
  · rw [blockRead_ok hok]
    dsimp only
    rw [loggedAligned_spec.1, hiff fun hn hpos => hshort (by omega) (by omega) hok]
    constructor
    · intro h k hk
      cases k with
      | zero => exact hok
      | succ k =>
        have hread := h k (Nat.lt_of_succ_lt_succ hk)
        rwa [Nat.add_right_comm] at hread
    · intro h k hk
      have hread := h (k + 1) (Nat.succ_lt_succ hk)
      rwa [← Nat.add_assoc, Nat.add_right_comm] at hread
  · obtain ⟨got, -, hread⟩ := blockRead_false hok vol (sector + off / 512) 1 env.stack 0
    rw [hread]
    exact iff_of_false Bool.false_ne_true fun h => hok (h 0 (Nat.succ_pos _))

variable (vol env time sector off len addr buf) in
/-- 1 is returned exactly if the range lies in the partition and every read that it needs succeeds,
and then the range is in the buffer; nothing is written elsewhere, and no sector outside the
partition is asked for. -/
structure DevreadRight : Prop where
  returns : (loggedDevread vol env time sector off len buf addr).transfer.ok = true ↔
    Inside vol sector off len ∧
      ∀ k < (neededCalls sector off len).length, env.reads (time + k) = .ok
  data : (loggedDevread vol env time sector off len buf addr).transfer.ok = true →
    readAt (loggedDevread vol env time sector off len buf addr).transfer.buf addr len =
      readAt vol.disk (sector * 512 + off) len
  frame : ∀ a, ¬ InRange addr len a →
    (loggedDevread vol env time sector off len buf addr).transfer.buf a = buf a
  asks : ∀ c ∈ (loggedDevread vol env time sector off len buf addr).calls,
    c.1 + c.2 ≤ vol.partSize

/-- The read that is not looked at is one that the range needs. -/
theorem shortOk_of_needed
    (h : ∀ k < (neededCalls sector off len).length, env.reads (time + k) = .ok) :
    ShortOk env time off len := by
  have hlast : ∀ {s n : Nat}, 0 < n → n < 512 → 0 < (alignedCalls s n).length := by
    intro s n hpos hlt
    rw [alignedCalls, if_neg (show n % 512 ≠ 0 by omega), List.length_append]
    exact Nat.add_pos_right _ Nat.one_pos
  unfold ShortOk
  unfold neededCalls at h
  by_cases haligned : off % 512 = 0
  · rw [if_pos haligned] at h ⊢
    exact fun hpos hlt => h 0 (hlast hpos hlt)
  · rw [if_neg haligned] at h ⊢
    intro hmore hlt _
    have hpos : 0 < (alignedCalls (sector + off / 512 + 1)
        (len - min (512 - off % 512) len)).length := hlast (by omega) (by omega)
    exact h 1 (Nat.succ_lt_succ hpos)

/-- Where that read fails, 1 is returned all the same. -/
theorem ok_of_not_shortOk (hshort : ¬ ShortOk env time off len)
    (hin : ¬ ((sector : Int) < 0 ∨
      vol.partSize ≤ (sector : Int).toNat + (off + len - 1) / 512)) :
    (loggedDevread vol env time sector off len buf addr).transfer.ok = true := by
  unfold ShortOk at hshort
  rw [loggedDevread, if_neg hin, Int.toNat_natCast]
  dsimp only
  by_cases haligned : off % 512 = 0
  · rw [if_pos haligned] at hshort ⊢
    push Not at hshort
    exact loggedAligned_spec.1.mpr fun hlong => by omega
  · rw [if_neg haligned] at hshort ⊢
    push Not at hshort
    rw [blockRead_ok hshort.2.2.1]
    exact loggedAligned_spec.1.mpr fun hlong => by omega

end Devread

/-- **Exactly when a read of the device is right**: if the range lies in the partition, the read
whose result is not looked at does not fail. -/
theorem devread_right_iff (vol : Volume) (env : Env) (time sector off len : Nat) (buf : Contents)
    (addr : Nat) (hlen : 0 < len) :
    DevreadRight vol env time sector off len addr buf ↔
      (Inside vol sector off len → ShortOk env time off len) := by
  have hout : ¬ ((sector : Int) < 0 ∨
      vol.partSize ≤ (sector : Int).toNat + (off + len - 1) / 512) ↔ Inside vol sector off len := by
    unfold Inside
    omega
  by_cases hin : Inside vol sector off len
  swap
  · -- the read is refused, and there is nothing to show but that
    have hlogged : loggedDevread vol env time sector off len buf addr = ⟨⟨false, buf, time⟩, []⟩ := by
      rw [loggedDevread, if_pos (not_not.mp (mt hout.mp hin))]
    refine iff_of_true ⟨?_, ?_, ?_, ?_⟩ fun h => absurd h hin
    · rw [hlogged]
      exact iff_of_false Bool.false_ne_true fun h => hin h.1
    · rw [hlogged]
      exact fun h => absurd h Bool.false_ne_true
    · rw [hlogged]
      exact fun _ _ => rfl
    · rw [hlogged]
      exact fun c hc => absurd hc List.not_mem_nil
  have hguard := hout.mpr hin
  have hdelivers : Delivers vol env time (sector * 512 + off) len buf addr (ShortOk env time off len)
      (ext2fsDevread vol env time sector off len buf addr) :=
    ext2fsDevread_delivers (by omega) (Nat.add_assoc _ off len ▸ hin)
  constructor
  · intro h _
    by_contra hshort
    exact hshort (shortOk_of_needed (h.returns.mp (ok_of_not_shortOk hshort hguard)).2)
  · intro hshort
    refine ⟨?_, ?_, ?_, ?_⟩
    · rw [loggedDevread_transfer, ext2fsDevread_ok_iff (hshort hin) hguard]
      exact (and_iff_right hin).symm
    · rw [loggedDevread_transfer]
      intro hok
      have hread := readAt_storeAt buf addr (readAt vol.disk (sector * 512 + off) len)
      rw [length_readAt] at hread
      rw [hdelivers.data hok (hshort hin), hread]
    · rw [loggedDevread_transfer]
      exact hdelivers.frame
    · intro c hc
      exact neededCalls_inside hlen hin ((loggedDevread_calls hguard).mem hc)

/-- A device of two sectors whose first call of `block_read` is this. -/
def twoSectors : Volume := ⟨0, 1, 2, fun _ => 0x5A⟩

def firstCall (first : Outcome) : Env where
  reads := fun t => if t = 0 then first else .ok
  stack := fun _ => 0
  heap := fun _ => 0

/-- The first sector and more, of a device that reads it. -/
theorem devread_right_ok : DevreadRight twoSectors (firstCall .ok) 0 0 0 600 0 (fun _ => 0) := by
  refine (devread_right_iff twoSectors (firstCall .ok) 0 0 0 600 (fun _ => 0) 0 (by decide)).mpr ?_
  intro _
  rw [ShortOk, if_pos (Nat.zero_mod 512)]
  exact fun _ _ => rfl

/-- The beginning of a sector that cannot be read. -/
theorem not_devread_right :
    ¬ DevreadRight twoSectors (firstCall (.failed [])) 0 0 0 100 0 (fun _ => 0) := by
  intro h
  have hguard : ¬ (((0 : Nat) : Int) < 0 ∨
      twoSectors.partSize ≤ ((0 : Nat) : Int).toNat + (0 + 100 - 1) / 512) := by decide
  have hshort : ¬ ShortOk (firstCall (.failed [])) 0 0 100 := by
    rw [ShortOk, if_pos (Nat.zero_mod 512)]
    exact fun h => absurd (h (by decide) (by decide)) (by decide)
  have hread := (h.returns.mp (ok_of_not_shortOk hshort hguard)).2
  exact hshort (shortOk_of_needed hread)

end UBoot.Fs.Ext2
