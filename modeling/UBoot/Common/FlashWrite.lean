import UBoot.Common.Flash

/-!
# The copy to flash

What `flash_write` of `common/flash.c` passes to `write_buff`.  The calls tile a prefix of the
range (`writeBanks_span`) and, where the driver reports no error and the last bank of the loop
holds the last address, the whole of it (`writeBanks_full`).

* `flashWrite_unprotected_iff`: no protected sector is written, except where the test for
  protected sectors misses all that the range hits.  It misses the last sector of a bank at the
  end of the address space, and every bank outside the part of the array that it goes through.
* `flashWrite_routed_iff`: every byte gets to its own bank exactly if the banks from the first to
  the last follow each other in the array as they do in memory, without a gap.
-/

namespace UBoot.Common

/-! ## Calls that tile a range -/

/-- The call writes the address. -/
def WriteCall.Covers (c : WriteCall) (a : Nat) : Prop := c.addr ≤ a ∧ a < c.addr + c.len

instance (c : WriteCall) (a : Nat) : Decidable (c.Covers a) := by
  unfold WriteCall.Covers
  infer_instance

/-- Each call starts where the one before it ended, in the source and in memory. -/
inductive Span : Nat → Nat → List WriteCall → Nat → Prop
  | nil (src addr : Nat) : Span src addr [] addr
  | cons {src addr stop : Nat} {c : WriteCall} {cs : List WriteCall} :
      c.src = src → c.addr = addr → Span (src + c.len) (addr + c.len) cs stop →
      Span src addr (c :: cs) stop

namespace Span

variable {src addr stop a : Nat} {cs : List WriteCall} {c : WriteCall}

theorem le (h : Span src addr cs stop) : addr ≤ stop := by
  induction h with
  | nil src addr => exact le_rfl
  | cons _ _ _ ih => exact (Nat.le_add_right _ _).trans ih

theorem inside (h : Span src addr cs stop) (hc : c ∈ cs) :
    addr ≤ c.addr ∧ c.addr + c.len ≤ stop := by
  induction h with
  | nil src addr => cases hc
  | @cons src addr stop d ds hsrc haddr hspan ih =>
    have hle := hspan.le
    rcases List.mem_cons.mp hc with rfl | hmem
    · omega
    · have := ih hmem
      omega

/-- Every address of the range is in exactly one call, at its place of the source. -/
theorem once (h : Span src addr cs stop) (hlo : addr ≤ a) (hhi : a < stop) :
    ∃ c ∈ cs, cs.filter (fun d => d.Covers a) = [c] ∧
      c.src + (a - c.addr) = src + (a - addr) := by
  induction h with
  | nil src addr => omega
  | @cons src addr stop d ds hsrc haddr hspan ih =>
    by_cases hin : d.Covers a
    · -- The calls behind it start behind the address.
      have hnone : ds.filter (fun e => e.Covers a) = [] := by
        rw [List.filter_eq_nil_iff]
        intro e he hcov
        have hafter := (hspan.inside he).1
        have hcov := of_decide_eq_true hcov
        unfold WriteCall.Covers at hin hcov
        omega
      refine ⟨d, List.mem_cons_self, ?_, by rw [hsrc, haddr]⟩
      rw [List.filter_cons_of_pos (by simpa using hin), hnone]
    · have hbehind : addr + d.len ≤ a := by
        unfold WriteCall.Covers at hin
        omega
      obtain ⟨c, hc, honly, hplace⟩ := ih hbehind hhi
      refine ⟨c, List.mem_cons_of_mem _ hc, ?_, by omega⟩
      rw [List.filter_cons_of_neg (by simpa using hin), honly]

end Span

/-! ## The loop -/

section Loop

variable {answer : Nat → Int} {l : List (FlashInfo × Nat)} {b : FlashInfo} {k src addr cnt : Nat}

/-- An address behind the bank makes the difference wrap, and then all that is left is written. -/
theorem chunk_eq (hfit : addr + cnt ≤ 2 ^ 32) (hpos : 0 < cnt) (hin : 0 < addr ∨ b.InBank addr) :
    chunk b addr cnt = if b.stop < addr then cnt else min (b.stop - addr) cnt := by
  have hle := b.stop_le
  have hlt := b.start_lt_stop
  have hsize := b.size_lt
  have hend := b.bEnd_eq
  unfold chunk
  -- A bank at address 0 is too small to reach the end of the address space.
  have hzero : addr = 0 → b.stop < 2 ^ 32 := by
    intro h0
    rcases hin with hlt | hbank
    · omega
    · have hbase := hbank.1
      unfold FlashInfo.stop
      omega
  split at hend
  · rw [if_neg (by omega), hend, Nat.mod_eq_of_lt (by omega)]
    omega
  · split
    · rw [hend, Nat.mod_eq_of_lt (by omega)]
      omega
    · have hmod : (b.bEnd + 2 ^ 32 - addr) % 2 ^ 32 = b.stop - addr := by
        rw [hend, show b.stop + 2 ^ 32 - addr = b.stop - addr + 2 ^ 32 by omega,
          Nat.add_mod_right, Nat.mod_eq_of_lt (by omega)]
      rw [hmod]

theorem chunk_le : chunk b addr cnt ≤ cnt := Nat.min_le_right _ _

@[simp]
theorem writeBanks_nil : writeBanks answer [] src addr cnt = ([], 0) := rfl

@[simp]
theorem writeBanks_zero : writeBanks answer l src addr 0 = ([], 0) := by
  cases l with
  | nil => rfl
  | cons p l => rw [writeBanks, if_pos rfl]

theorem writeBanks_error (hpos : 0 < cnt) (herr : answer k ≠ 0) :
    writeBanks answer ((b, k) :: l) src addr cnt =
      ([⟨k, src, addr, chunk b addr cnt⟩], answer k) := by
  rw [writeBanks, if_neg (by omega), if_pos herr]

/-- The sum with the length does not wrap as long as there is something left to write. -/
theorem writeBanks_ok (hfit : addr + cnt ≤ 2 ^ 32) (hpos : 0 < cnt) (hok : answer k = 0) :
    writeBanks answer ((b, k) :: l) src addr cnt =
      (⟨k, src, addr, chunk b addr cnt⟩ ::
          (writeBanks answer l (src + chunk b addr cnt) (addr + chunk b addr cnt)
            (cnt - chunk b addr cnt)).1,
        (writeBanks answer l (src + chunk b addr cnt) (addr + chunk b addr cnt)
          (cnt - chunk b addr cnt)).2) := by
  have hle : chunk b addr cnt ≤ cnt := chunk_le
  rw [writeBanks, if_neg (by omega), if_neg (by simpa using hok)]
  rcases hle.lt_or_eq with hlt | heq
  · rw [Nat.mod_eq_of_lt (by omega)]
  · simp [heq]

theorem writeBanks_span (hfit : addr + cnt ≤ 2 ^ 32) :
    ∃ stop ≤ addr + cnt, Span src addr (writeBanks answer l src addr cnt).1 stop := by
  induction l generalizing src addr cnt with
  | nil => exact ⟨addr, by omega, Span.nil src addr⟩
  | cons p l ih =>
    obtain ⟨b, k⟩ := p
    have hle : chunk b addr cnt ≤ cnt := chunk_le
    rcases Nat.eq_zero_or_pos cnt with rfl | hpos
    · rw [writeBanks_zero]
      exact ⟨addr, le_rfl, Span.nil src addr⟩
    by_cases hok : answer k = 0
    · obtain ⟨stop, hstop, hspan⟩ := @ih (src + chunk b addr cnt) (addr + chunk b addr cnt)
        (cnt - chunk b addr cnt) (by omega)
      rw [writeBanks_ok hfit hpos hok]
      exact ⟨stop, by omega, Span.cons rfl rfl hspan⟩
    · rw [writeBanks_error hpos hok]
      exact ⟨addr + chunk b addr cnt, by omega, Span.cons rfl rfl (Span.nil _ _)⟩

/-- Without errors, and with the last address in the last bank of the loop, all is written. -/
theorem writeBanks_full (hfit : addr + cnt ≤ 2 ^ 32) (hpos : 0 < cnt) (hok : ∀ k, answer k = 0)
    (hfirst : 0 < addr ∨ ∃ p, l.head? = some p ∧ p.1.InBank addr)
    (hlast : ∃ p, l.getLast? = some p ∧ p.1.InBank (addr + cnt - 1)) :
    Span src addr (writeBanks answer l src addr cnt).1 (addr + cnt) := by
  induction l generalizing src addr cnt with
  | nil =>
    obtain ⟨p, hp, -⟩ := hlast
    cases hp
  | cons p l ih =>
    obtain ⟨b, k⟩ := p
    have hin : 0 < addr ∨ b.InBank addr := by
      rcases hfirst with hlt | ⟨p, hp, hbank⟩
      · exact Or.inl hlt
      · cases hp
        exact Or.inr hbank
    have hlen := chunk_eq hfit hpos hin
    have hle : chunk b addr cnt ≤ cnt := chunk_le
    have hspan : Span (src + chunk b addr cnt) (addr + chunk b addr cnt)
        (writeBanks answer l (src + chunk b addr cnt) (addr + chunk b addr cnt)
          (cnt - chunk b addr cnt)).1 (addr + cnt) := by
      rcases hle.lt_or_eq with hlt | heq
      · have hmore : 0 < addr + chunk b addr cnt := by
          rcases hin with hlt | hbank
          · omega
          · have := hbank.2
            rw [if_neg (by omega)] at hlen
            omega
        have hend : addr + chunk b addr cnt + (cnt - chunk b addr cnt) = addr + cnt := by omega
        rw [← hend]
        refine ih (by omega) (by omega) (Or.inl hmore) ?_
        rw [hend]
        -- The last bank is still ahead, since it would have taken all that is left.
        cases l with
        | nil =>
          obtain ⟨q, hq, hbank⟩ := hlast
          cases hq
          have hstop : addr + cnt - 1 < b.stop := hbank.2
          rw [if_neg (by omega)] at hlen
          omega
        | cons q l => simpa only [List.getLast?_cons_cons] using hlast
      · rw [heq, Nat.sub_self, writeBanks_zero]
        exact Span.nil _ _
    rw [writeBanks_ok hfit hpos (hok k)]
    exact Span.cons rfl rfl hspan

theorem writeBanks_bank {c : WriteCall} (hc : c ∈ (writeBanks answer l src addr cnt).1) :
    ∃ b, (b, c.bank) ∈ l := by
  induction l generalizing src addr cnt with
  | nil => cases hc
  | cons p l ih =>
    obtain ⟨b, k⟩ := p
    unfold writeBanks at hc
    split at hc
    · cases hc
    · dsimp only at hc
      split at hc
      · rw [List.mem_singleton] at hc
        exact ⟨b, by rw [hc]; exact List.mem_cons_self⟩
      · rcases List.mem_cons.mp hc with rfl | hmem
        · exact ⟨b, List.mem_cons_self⟩
        · obtain ⟨d, hd⟩ := ih hmem
          exact ⟨d, List.mem_cons_of_mem _ hd⟩

/-- The return value is 0 or an answer of the driver. -/
theorem writeBanks_rc (hrc : (writeBanks answer l src addr cnt).2 ≠ 0) :
    ∃ c ∈ (writeBanks answer l src addr cnt).1,
      (writeBanks answer l src addr cnt).2 = answer c.bank := by
  induction l generalizing src addr cnt with
  | nil => exact absurd rfl hrc
  | cons p l ih =>
    obtain ⟨b, k⟩ := p
    unfold writeBanks at hrc ⊢
    split
    · rename_i hzero
      rw [if_pos hzero] at hrc
      exact absurd rfl hrc
    · rename_i hpos
      rw [if_neg hpos] at hrc
      dsimp only at hrc ⊢
      split
      · exact ⟨_, List.mem_cons_self, rfl⟩
      · rename_i hok
        rw [if_neg hok] at hrc
        obtain ⟨c, hc, heq⟩ := ih hrc
        exact ⟨c, List.mem_cons_of_mem _ hc, heq⟩

/-- A return value of 0 means that the driver has reported none. -/
theorem writeBanks_congr {answer' : Nat → Int} (hok : ∀ k, answer' k = 0)
    (hrc : (writeBanks answer l src addr cnt).2 = 0) :
    (writeBanks answer l src addr cnt).1 = (writeBanks answer' l src addr cnt).1 := by
  induction l generalizing src addr cnt with
  | nil => rfl
  | cons p l ih =>
    obtain ⟨b, k⟩ := p
    unfold writeBanks at hrc ⊢
    split
    · rfl
    · rename_i hpos
      rw [if_neg hpos] at hrc
      dsimp only at hrc ⊢
      split at hrc
      · rename_i herr
        exact absurd hrc herr
      · rename_i hzero
        rw [if_neg hzero, if_neg (by simpa using hok k)]
        exact congrArg (List.cons _) (ih hrc)

end Loop

/-! ## The banks of the loop -/

section Range

variable {banks : List FlashInfo} {answer : Nat → Int} {b c : FlashInfo}
  {first final addr cnt : Nat}

theorem bankRange_head (hle : first ≤ final) (hb : banks[first]? = some b) :
    (bankRange banks first final).head? = some (b, first) := by
  rw [List.head?_eq_getElem?, getElem?_bankRange, if_pos (by omega), Nat.add_zero, hb]
  rfl

theorem bankRange_getLast (hle : first ≤ final) (hc : banks[final]? = some c) :
    (bankRange banks first final).getLast? = some (c, final) := by
  have hlen : final < banks.length := (List.getElem?_eq_some_iff.mp hc).1
  have hcount : (bankRange banks first final).length = final + 1 - first := by
    rw [bankRange, List.length_take, List.length_drop, List.length_zipIdx]
    omega
  rw [List.getLast?_eq_getElem?, hcount, getElem?_bankRange, if_pos (by omega),
    show first + (final + 1 - first - 1) = final by omega, hc]
  rfl

theorem bankRange_eq_nil (hlt : final < first) : bankRange banks first final = [] := by
  rw [bankRange, show final + 1 - first = 0 by omega, List.take_zero]

/-- The range does not wrap, so the last address is what it looks like. -/
theorem last_eq (hpos : 0 < cnt) (hfit : addr + cnt ≤ 2 ^ 32) :
    (addr + cnt + 2 ^ 32 - 1) % 2 ^ 32 = addr + cnt - 1 := by
  rw [show addr + cnt + 2 ^ 32 - 1 = addr + cnt - 1 + 2 ^ 32 by omega, Nat.add_mod_right]
  exact Nat.mod_eq_of_lt (by omega)

/-- The write loop is reached. -/
structure Reached (banks : List FlashInfo) (addr cnt first final : Nat) : Prop where
  first_eq : addr2info banks addr = some first
  final_eq : addr2info banks (addr + cnt - 1) = some final
  no_hit : ∀ p ∈ bankRange banks first final, hitsProtected p.1 addr (addr + cnt - 1) = false

theorem flashWrite_reached (hpos : 0 < cnt) (hfit : addr + cnt ≤ 2 ^ 32)
    (h : Reached banks addr cnt first final) : flashWrite banks answer addr cnt =
      writeBanks answer (bankRange banks first final) 0 addr cnt := by
  have hno : ¬ ((bankRange banks first final).any
      fun p => hitsProtected p.1 addr (addr + cnt - 1)) = true := by
    rw [List.any_eq_true]
    rintro ⟨p, hp, hhit⟩
    rw [h.no_hit p hp] at hhit
    cases hhit
  rw [flashWrite]
  dsimp only
  rw [last_eq hpos hfit, if_neg (by omega), h.first_eq, h.final_eq]
  dsimp only
  rw [if_neg hno]

/-- If it is not, nothing is written and the return value says so. -/
theorem flashWrite_cases (banks : List FlashInfo) (answer : Nat → Int) (hpos : 0 < cnt)
    (hfit : addr + cnt ≤ 2 ^ 32) :
    (∃ first final, Reached banks addr cnt first final) ∨
      flashWrite banks answer addr cnt = ([], errInval) ∨
      flashWrite banks answer addr cnt = ([], errProtected) := by
  rw [flashWrite]
  dsimp only
  rw [last_eq hpos hfit, if_neg (by omega)]
  split
  · rename_i first final hfirst hfinal
    split
    · exact Or.inr (Or.inr rfl)
    · rename_i hno
      refine Or.inl ⟨first, final, hfirst, hfinal, ?_⟩
      intro p hp
      rw [Bool.eq_false_iff]
      intro hhit
      exact hno (List.any_eq_true.mpr ⟨p, hp, hhit⟩)
  · exact Or.inr (Or.inl rfl)

/-- Without errors of the driver, the calls tile the whole range. -/
theorem Reached.full (hpos : 0 < cnt) (hfit : addr + cnt ≤ 2 ^ 32)
    (h : Reached banks addr cnt first final) (hle : first ≤ final) (hok : ∀ k, answer k = 0) :
    Span 0 addr (writeBanks answer (bankRange banks first final) 0 addr cnt).1 (addr + cnt) := by
  obtain ⟨b, hb, hin⟩ := addr2info_eq_some h.first_eq
  obtain ⟨c, hc, hend⟩ := addr2info_eq_some h.final_eq
  exact writeBanks_full hfit hpos hok (Or.inr ⟨(b, first), bankRange_head hle hb, hin⟩)
    ⟨(c, final), bankRange_getLast hle hc, hend⟩

end Range

/-! ## Protected sectors -/

section Protected

variable {banks : List FlashInfo} {addr cnt : Nat}

/-- The address lies in a protected sector of the bank. -/
def FlashInfo.Protects (b : FlashInfo) (a : Nat) : Prop :=
  ∃ i, b.protect i = true ∧ b.InSector i a

/-- The same, without a last sector at the end of the address space. -/
def FlashInfo.ProtectsBelow (b : FlashInfo) (a : Nat) : Prop :=
  ∃ i, b.protect i = true ∧ b.InSector i a ∧ b.sectorStop i ≠ 2 ^ 32

/-- No call of `write_buff` writes to a protected sector. -/
def SparesProtected (banks : List FlashInfo) (calls : List WriteCall) : Prop :=
  ∀ call ∈ calls, ∀ a, call.Covers a → ∀ b ∈ banks, ¬ b.Protects a

/-- Where the range hits a protected sector, it also hits one that the test sees: one of a bank
between those of the first and the last address, and not at the end of the address space. -/
def TestSees (banks : List FlashInfo) (addr cnt : Nat) : Prop :=
  ∀ first final, addr2info banks addr = some first →
    addr2info banks (addr + cnt - 1) = some final → first ≤ final →
    (∃ b ∈ banks, ∃ a, addr ≤ a ∧ a < addr + cnt ∧ b.Protects a) →
    ∃ k b a, first ≤ k ∧ k ≤ final ∧ banks[k]? = some b ∧ addr ≤ a ∧ a < addr + cnt ∧
      b.ProtectsBelow a

theorem flashWrite_unprotected_iff (hpos : 0 < cnt) (hfit : addr + cnt ≤ 2 ^ 32) :
    (∀ answer, SparesProtected banks (flashWrite banks answer addr cnt).1) ↔
      TestSees banks addr cnt := by
  constructor
  · rintro hspares first final hfirst hfinal hle ⟨b, hb, a, hlo, hhi, hprotects⟩
    by_contra hunseen
    have hreached : Reached banks addr cnt first final := by
      refine ⟨hfirst, hfinal, ?_⟩
      rintro ⟨c, k⟩ hp
      obtain ⟨hfk, hkf, hk⟩ := mem_bankRange.mp hp
      rw [Bool.eq_false_iff]
      intro hhit
      obtain ⟨i, d, hprotect, hsector, hd, hlast, htop⟩ :=
        (hitsProtected_iff (by omega)).mp hhit
      exact hunseen ⟨k, c, d, hfk, hkf, hk, hd, by omega, i, hprotect, hsector, htop⟩
    have hspan : Span 0 addr
        (writeBanks (fun _ => 0) (bankRange banks first final) 0 addr cnt).1 (addr + cnt) :=
      hreached.full hpos hfit hle fun _ => rfl
    obtain ⟨call, hcall, hfilter, -⟩ := hspan.once hlo hhi
    have hmem : call ∈ [call] := List.mem_singleton_self call
    rw [← hfilter] at hmem
    refine hspares (fun _ => 0) call ?_ a (of_decide_eq_true (List.mem_filter.mp hmem).2) b hb
      hprotects
    rw [flashWrite_reached hpos hfit hreached]
    exact hcall
  · intro hsees answer call hcall a hcov b hb hprotects
    rcases flashWrite_cases banks answer hpos hfit with
      ⟨first, final, hreached⟩ | hinval | hprot
    · rw [flashWrite_reached hpos hfit hreached] at hcall
      obtain ⟨c, hc⟩ := writeBanks_bank hcall
      obtain ⟨hfk, hkf, -⟩ := mem_bankRange.mp hc
      obtain ⟨stop, hstop, hspan⟩ :=
        @writeBanks_span answer (bankRange banks first final) 0 addr cnt hfit
      have hinside := hspan.inside hcall
      obtain ⟨k, d, e, hlo, hhi, hk, he, hlast, i, hprotect, hsector, htop⟩ :=
        hsees first final hreached.first_eq hreached.final_eq (by omega)
          ⟨b, hb, a, by unfold WriteCall.Covers at hcov; omega,
            by unfold WriteCall.Covers at hcov; omega, hprotects⟩
      have hhit := hreached.no_hit (d, k) (mem_bankRange.mpr ⟨hlo, hhi, hk⟩)
      rw [(hitsProtected_iff (by omega)).mpr
        ⟨i, e, hprotect, hsector, he, by omega, htop⟩] at hhit
      cases hhit
    · rw [hinval] at hcall
      cases hcall
    · rw [hprot] at hcall
      cases hcall

/-- Four sectors at the end of the address space, the last of them protected. -/
def topBank : FlashInfo :=
  FlashInfo.uniform 0xFFFC0000 0x10000 4 (fun i => decide (i = 3)) sector_pos (by decide)
    (by decide) (by decide)

theorem flashWrite_unprotected_topBank : 0 < 0x20000 ∧ 0xFFFC0000 + 0x20000 ≤ 2 ^ 32 ∧
    ∀ answer, SparesProtected [topBank] (flashWrite [topBank] answer 0xFFFC0000 0x20000).1 := by
  refine ⟨by decide, by decide, (flashWrite_unprotected_iff (by decide) (by decide)).mpr ?_⟩
  rintro first final - - - ⟨b, hb, a, hlo, hhi, i, hprotect, hsector⟩
  rw [List.mem_singleton] at hb
  subst hb
  -- The protected sector is behind the range.
  have hi : i = 3 := of_decide_eq_true hprotect
  subst hi
  have hstart : 0xFFFF0000 ≤ a := hsector.2.1
  omega

theorem flashWrite_hits_protected : (∀ b ∈ [topBank], b.known = true) ∧ BanksApart [topBank] ∧
    0 < 4 ∧ 0xFFFF0000 + 4 ≤ 2 ^ 32 ∧
    ¬ ∀ answer, SparesProtected [topBank] (flashWrite [topBank] answer 0xFFFF0000 4).1 := by
  refine ⟨by decide, List.pairwise_singleton _ _, by decide, by decide, ?_⟩
  intro hspares
  have hcalls : (flashWrite [topBank] (fun _ => 0) 0xFFFF0000 4).1 = [⟨0, 0, 0xFFFF0000, 4⟩] := by
    decide +kernel
  have hmem : ⟨0, 0, 0xFFFF0000, 4⟩ ∈ (flashWrite [topBank] (fun _ => 0) 0xFFFF0000 4).1 := by
    rw [hcalls]
    exact List.mem_singleton_self _
  refine hspares (fun _ => 0) _ hmem 0xFFFF0000 ⟨by decide, by decide⟩ topBank
    (List.mem_singleton_self _) ⟨3, by decide, by decide, by decide, by decide⟩

end Protected

/-! ## Bytes and banks -/

section Routed

variable {banks : List FlashInfo} {answer : Nat → Int} {l : List (FlashInfo × Nat)}
  {first final src addr cnt : Nat}

/-- The call stays in its bank. -/
def WriteCall.Fits (banks : List FlashInfo) (c : WriteCall) : Prop :=
  ∀ a, c.Covers a → ∃ b, banks[c.bank]? = some b ∧ b.InBank a

/-- Every address of the range is in exactly one call, with its byte of the source and with the
bank that it lies in. -/
def Routed (banks : List FlashInfo) (calls : List WriteCall) (addr cnt : Nat) : Prop :=
  ∀ a, addr ≤ a → a < addr + cnt → ∃ c b, calls.filter (fun d => d.Covers a) = [c] ∧
    c.src + (a - c.addr) = a - addr ∧ banks[c.bank]? = some b ∧ b.InBank a

theorem routed_iff {calls : List WriteCall} (hspan : Span 0 addr calls (addr + cnt)) :
    Routed banks calls addr cnt ↔ ∀ c ∈ calls, c.Fits banks := by
  constructor
  · intro hrouted c hc a hcov
    have hinside := hspan.inside hc
    obtain ⟨d, b, hfilter, -, hb, hin⟩ :=
      hrouted a (by unfold WriteCall.Covers at hcov; omega)
        (by unfold WriteCall.Covers at hcov; omega)
    have hmem : c ∈ calls.filter (fun d => d.Covers a) :=
      List.mem_filter.mpr ⟨hc, decide_eq_true hcov⟩
    rw [hfilter, List.mem_singleton] at hmem
    subst hmem
    exact ⟨b, hb, hin⟩
  · intro hfits a hlo hhi
    obtain ⟨c, hc, hfilter, hplace⟩ := hspan.once hlo hhi
    have hmem : c ∈ calls.filter (fun d => d.Covers a) := by
      rw [hfilter]
      exact List.mem_singleton_self c
    obtain ⟨b, hb, hin⟩ := hfits c hc a (of_decide_eq_true (List.mem_filter.mp hmem).2)
    exact ⟨c, b, hfilter, by omega, hb, hin⟩

/-- If the calls keep to their banks, the loop begins in the first one. -/
theorem inBank_of_fits {c : FlashInfo} {j : Nat} (hfit : addr + cnt ≤ 2 ^ 32) (hpos : 0 < cnt)
    (haddr : 0 < addr) (hstop : addr ≠ c.stop) (hok : answer j = 0) (hj : banks[j]? = some c)
    (hfits : ∀ d ∈ (writeBanks answer ((c, j) :: l) src addr cnt).1, d.Fits banks) :
    c.InBank addr := by
  rw [writeBanks_ok hfit hpos hok] at hfits
  have hnonempty : 0 < chunk c addr cnt := by
    rw [chunk_eq hfit hpos (Or.inl haddr)]
    split <;> omega
  obtain ⟨d, hd, hin⟩ := hfits _ List.mem_cons_self addr
    ⟨le_rfl, Nat.lt_add_of_pos_right hnonempty⟩
  rw [hj] at hd
  cases hd
  exact hin

/-- The loop keeps to the banks exactly if they follow each other without a gap. -/
theorem writeBanks_fits_iff (hfit : addr + cnt ≤ 2 ^ 32) (hpos : 0 < cnt)
    (hok : ∀ k, answer k = 0) (hidx : ∀ p ∈ l, banks[p.2]? = some p.1)
    (hapart : l.Pairwise fun p q => p.1.stop ≤ q.1.start 0 ∨ q.1.stop ≤ p.1.start 0)
    (hfirst : ∃ p, l.head? = some p ∧ p.1.InBank addr)
    (hlast : ∃ p, l.getLast? = some p ∧ p.1.InBank (addr + cnt - 1)) :
    (∀ c ∈ (writeBanks answer l src addr cnt).1, c.Fits banks) ↔
      l.IsChain fun p q => p.1.stop = q.1.start 0 := by
  induction l generalizing src addr cnt with
  | nil =>
    obtain ⟨p, hp, -⟩ := hfirst
    cases hp
  | cons p l ih =>
    obtain ⟨b, k⟩ := p
    have hbank : b.InBank addr := by
      obtain ⟨p, hp, hin⟩ := hfirst
      cases hp
      exact hin
    have hb : banks[k]? = some b := hidx (b, k) List.mem_cons_self
    have hlen := chunk_eq hfit hpos (Or.inr hbank)
    rw [if_neg (by have := hbank.2; omega)] at hlen
    have hown : WriteCall.Fits banks ⟨k, src, addr, chunk b addr cnt⟩ := by
      intro a hcov
      have hlo : addr ≤ a := hcov.1
      have hhi : a < addr + chunk b addr cnt := hcov.2
      exact ⟨b, hb, by unfold FlashInfo.InBank at *; omega⟩
    rw [writeBanks_ok hfit hpos (hok k)]
    simp only [List.forall_mem_cons]
    cases l with
    | nil => simpa using hown
    | cons q l =>
      obtain ⟨c, j⟩ := q
      rw [List.getLast?_cons_cons] at hlast
      rw [List.pairwise_cons] at hapart
      -- The last address is not in the first bank, which the range therefore leaves.
      have hleave : b.stop ≤ addr + cnt - 1 := by
        obtain ⟨p, hp, hin⟩ := hlast
        have hdisjoint := hapart.1 p (List.mem_of_getLast? hp)
        dsimp only at hdisjoint
        unfold FlashInfo.InBank at hin hbank
        omega
      have hchunk : chunk b addr cnt = b.stop - addr := by
        rw [hlen]
        omega
      have hnext : addr + chunk b addr cnt = b.stop := by
        have := hbank.2
        omega
      have hrest : b.stop + (cnt - chunk b addr cnt) = addr + cnt := by
        have := hbank.2
        omega
      have hcq := hapart.1 (c, j) List.mem_cons_self
      have hc := c.start_lt_stop
      have hbs := b.start_lt_stop
      rw [List.isChain_cons_cons, hnext, and_iff_right hown]
      have hih (hadj : b.stop = c.start 0) := @ih (src + chunk b addr cnt) b.stop
        (cnt - chunk b addr cnt) (by omega) (by omega)
        (fun p hp => hidx p (List.mem_cons_of_mem _ hp)) hapart.2
        ⟨(c, j), rfl, by unfold FlashInfo.InBank; dsimp only; omega⟩ (by rw [hrest]; exact hlast)
      constructor
      · intro hfits
        have hadj : b.stop = c.start 0 := by
          dsimp only at hcq
          have hin := @inBank_of_fits banks answer l _ b.stop _ c j (by omega) (by omega)
            (by omega) (by omega) (hok j) (hidx (c, j) (by simp)) hfits
          unfold FlashInfo.InBank at hin
          omega
        exact ⟨hadj, (hih hadj).mp hfits⟩
      · rintro ⟨hadj, hchain⟩
        exact (hih hadj).mpr hchain

/-- In the array, the banks from the first to the last follow each other as in memory. -/
def Follow (banks : List FlashInfo) (first final : Nat) : Prop :=
  ∀ k b c, first ≤ k → k < final → banks[k]? = some b → banks[k + 1]? = some c →
    b.stop = c.start 0

theorem isChain_bankRange : (bankRange banks first final).IsChain
    (fun p q => p.1.stop = q.1.start 0) ↔ Follow banks first final := by
  rw [List.isChain_iff_getElem]
  constructor
  · intro hchain k b c hlo hhi hb hc
    have hk : (bankRange banks first final)[k - first]? = some (b, k) := by
      rw [getElem?_bankRange, if_pos (by omega), Nat.add_sub_cancel' hlo, hb]
      rfl
    have hk' : (bankRange banks first final)[k - first + 1]? = some (c, k + 1) := by
      rw [getElem?_bankRange, if_pos (by omega), ← Nat.add_assoc, Nat.add_sub_cancel' hlo, hc]
      rfl
    obtain ⟨hi, hbk⟩ := List.getElem?_eq_some_iff.mp hk
    obtain ⟨hi', hck⟩ := List.getElem?_eq_some_iff.mp hk'
    have := hchain (k - first) hi'
    rw [hbk, hck] at this
    exact this
  · intro hfollow i hi
    have hb : (bankRange banks first final)[i]? = some (bankRange banks first final)[i] :=
      List.getElem?_eq_getElem _
    have hc : (bankRange banks first final)[i + 1]? = some (bankRange banks first final)[i + 1] :=
      List.getElem?_eq_getElem _
    rw [getElem?_bankRange] at hb hc
    split at hc
    · rename_i hlt
      rw [if_pos (by omega)] at hb
      obtain ⟨b, hb, hbi⟩ := Option.map_eq_some_iff.mp hb
      obtain ⟨c, hc, hci⟩ := Option.map_eq_some_iff.mp hc
      rw [← hbi, ← hci]
      exact hfollow (first + i) b c (by omega) (by omega) hb hc
    · cases hc

theorem pairwise_bankRange (hapart : BanksApart banks) : (bankRange banks first final).Pairwise
    fun p q => p.1.stop ≤ q.1.start 0 ∨ q.1.stop ≤ p.1.start 0 := by
  have hall : banks.zipIdx.Pairwise
      fun p q => p.1.stop ≤ q.1.start 0 ∨ q.1.stop ≤ p.1.start 0 := by
    rw [BanksApart, ← List.zipIdx_map_fst 0 banks] at hapart
    exact List.pairwise_map.mp hapart
  exact hall.sublist ((List.take_sublist _ _).trans (List.drop_sublist _ _))

/-- What `flash_write` is to do with a return value: 0 means that all is written, and another
value is one of its own errors or that of the driver. -/
def WriteResult (banks : List FlashInfo) (answer : Nat → Int) (addr cnt : Nat)
    (r : List WriteCall × Int) : Prop :=
  (r.2 = 0 → Routed banks r.1 addr cnt) ∧
    (r.2 ≠ 0 → r.2 = errInval ∨ r.2 = errProtected ∨ ∃ c ∈ r.1, r.2 = answer c.bank)

theorem Reached.routed_iff (hapart : BanksApart banks) (hpos : 0 < cnt)
    (hfit : addr + cnt ≤ 2 ^ 32) (h : Reached banks addr cnt first final)
    (hok : ∀ k, answer k = 0) :
    Routed banks (writeBanks answer (bankRange banks first final) 0 addr cnt).1 addr cnt ↔
      first ≤ final ∧ Follow banks first final := by
  rcases Nat.lt_or_ge final first with hlt | hle
  · -- The loop does not start.
    rw [bankRange_eq_nil hlt, writeBanks_nil]
    refine iff_of_false ?_ (fun hcond => by omega)
    intro hrouted
    obtain ⟨c, b, hfilter, -⟩ := hrouted addr le_rfl (by omega)
    cases hfilter
  · rw [and_iff_right hle, UBoot.Common.routed_iff (h.full hpos hfit hle hok), ← isChain_bankRange]
    obtain ⟨b, hb, hin⟩ := addr2info_eq_some h.first_eq
    obtain ⟨c, hc, hend⟩ := addr2info_eq_some h.final_eq
    exact writeBanks_fits_iff hfit hpos hok (fun p hp => (mem_bankRange.mp hp).2.2)
      (pairwise_bankRange hapart) ⟨(b, first), bankRange_head hle hb, hin⟩
      ⟨(c, final), bankRange_getLast hle hc, hend⟩

theorem flashWrite_routed_iff (hapart : BanksApart banks) (hpos : 0 < cnt)
    (hfit : addr + cnt ≤ 2 ^ 32) :
    (∀ answer, WriteResult banks answer addr cnt (flashWrite banks answer addr cnt)) ↔
      ∀ first final, Reached banks addr cnt first final →
        first ≤ final ∧ Follow banks first final := by
  constructor
  · intro hresult first final hreached
    have hzero (r : Nat → Int) (hr : ∀ k, r k = 0) :
        (writeBanks r (bankRange banks first final) 0 addr cnt).2 = 0 := by
      by_contra hrc
      obtain ⟨c, -, hc⟩ := writeBanks_rc hrc
      rw [hr] at hc
      exact hrc hc
    have hok := (hresult fun _ => 0).1
    rw [flashWrite_reached hpos hfit hreached] at hok
    exact (hreached.routed_iff hapart hpos hfit fun _ => rfl).mp (hok (hzero _ fun _ => rfl))
  · intro hcond answer
    rcases flashWrite_cases banks answer hpos hfit with ⟨first, final, hreached⟩ | hinval | hprot
    · rw [flashWrite_reached hpos hfit hreached]
      refine ⟨?_, fun hrc => Or.inr (Or.inr (writeBanks_rc hrc))⟩
      intro hrc
      have hsame : (writeBanks answer (bankRange banks first final) 0 addr cnt).1 =
          (writeBanks (fun _ => 0) (bankRange banks first final) 0 addr cnt).1 :=
        writeBanks_congr (fun _ => rfl) hrc
      rw [hsame]
      exact (hreached.routed_iff hapart hpos hfit fun _ => rfl).mpr (hcond first final hreached)
    · rw [hinval]
      exact ⟨fun hrc => absurd hrc (by decide), fun _ => Or.inl rfl⟩
    · rw [hprot]
      exact ⟨fun hrc => absurd hrc (by decide), fun _ => Or.inr (Or.inl rfl)⟩

/-- Two sectors without protection. -/
def lowBank (base : Nat) (h : base ≤ 0x20000) : FlashInfo :=
  FlashInfo.uniform base 0x10000 2 (fun _ => false) sector_pos two_sectors two_sectors_lt (by omega)

/-- Two banks, one behind the other. -/
def orderedBanks : List FlashInfo := [lowBank 0 (by decide), lowBank 0x20000 (by decide)]

/-- The same banks in reverse order. -/
def reversedBanks : List FlashInfo := [lowBank 0x20000 (by decide), lowBank 0 (by decide)]

theorem flashWrite_routed_orderedBanks : BanksApart orderedBanks ∧ 0 < 0x20 ∧
    0x1FFF0 + 0x20 ≤ 2 ^ 32 ∧ (flashWrite orderedBanks (fun _ => 0) 0x1FFF0 0x20).2 = 0 ∧
    ∀ answer, WriteResult orderedBanks answer 0x1FFF0 0x20
      (flashWrite orderedBanks answer 0x1FFF0 0x20) := by
  have hapart : BanksApart orderedBanks := List.pairwise_pair.mpr (Or.inl (by decide))
  refine ⟨hapart, by decide, by decide, by decide,
    (flashWrite_routed_iff hapart (by decide) (by decide)).mpr ?_⟩
  intro first final hreached
  have hfirst : (0 : Nat) = first := Option.some.inj hreached.first_eq
  have hfinal : (1 : Nat) = final := Option.some.inj hreached.final_eq
  subst hfirst hfinal
  refine ⟨by decide, ?_⟩
  intro k b c _ hk hb hc
  have hzero : k = 0 := by omega
  subst hzero
  cases hb
  cases hc
  rfl

/-- With the banks in reverse order the loop does not start, and 0 is returned. -/
theorem flashWrite_not_routed : BanksApart reversedBanks ∧ 0 < 0x20 ∧ 0x1FFF0 + 0x20 ≤ 2 ^ 32 ∧
    flashWrite reversedBanks (fun _ => 0) 0x1FFF0 0x20 = ([], 0) ∧
    ¬ ∀ answer, WriteResult reversedBanks answer 0x1FFF0 0x20
      (flashWrite reversedBanks answer 0x1FFF0 0x20) := by
  have hnone : flashWrite reversedBanks (fun _ => 0) 0x1FFF0 0x20 = ([], 0) := by
    decide
  refine ⟨List.pairwise_pair.mpr (Or.inr (by decide)), by decide, by decide, hnone, ?_⟩
  intro hresult
  have hok := (hresult fun _ => 0).1
  rw [hnone] at hok
  obtain ⟨c, b, hfilter, -⟩ := hok rfl 0x1FFF0 (by decide) (by decide)
  cases hfilter

end Routed

end UBoot.Common
