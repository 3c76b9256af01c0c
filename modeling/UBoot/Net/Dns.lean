import UBoot.Lib.Logged
import UBoot.Lib.Loop
import UBoot.LibGeneric.Vsprintf
import UBoot.Net.Packet

/-!
# DNS answers

`DnsHandler` of `net/dns.c`, without `DEBUG` and on a little endian processor.  The payload is the
memory from `pkt` on, with whatever is behind its `len` bytes, and the bytes that are read of it
are logged.  The loop that would print the packet has a counter of 16 bits and goes on forever for
65533 bytes or more, which no datagram has.

The walk over the answers ends for every payload and stays inside (`dnsAnswers_ends`); the header,
the end of the question and the address are read without a look at the length
(`dnsHandler_safe_iff`).
-/

namespace UBoot.Net

open UBoot.Lib UBoot.LibGeneric

/-! ## The code -/

/-- `DNS_A_RECORD` -/
def dnsARecord : Nat := 1

/-- `DNS_CNAME_RECORD` -/
def dnsCnameRecord : Nat := 5

/-- What `DnsHandler` comes to: the packet is not for it, one of its messages, nothing at all, or
the address. -/
inductive DnsOutcome
  | ignored
  | noAnswers
  | noARecord
  | notFound
  | invalid
  | address (ip : IPaddr)
  deriving DecidableEq

/-- `%d` of a byte. -/
def decimal (n : Nat) : Bytes := (Nat.toDigits 10 n).map fun c => UInt8.ofNat c.toNat

/-- `ip_to_string` -/
def ipToString (ip : IPaddr) : Bytes :=
  decimal (ip.toNat / 2 ^ 24 % 256) ++ str "." ++ decimal (ip.toNat / 2 ^ 16 % 256) ++ str "." ++
    decimal (ip.toNat / 2 ^ 8 % 256) ++ str "." ++ decimal (ip.toNat % 256)

/-- The variable that is set: `NetDNSenvvar`, if there is one, with the address. -/
def dnsSetenv (netDNSenvvar : Option Bytes) : DnsOutcome → Option (Bytes × Bytes)
  | .address ip => netDNSenvvar.map fun name => (name, ipToString ip)
  | _ => none

/-- One pass of the loop around `debug`. -/
def debugPass (len i : Nat) : List Nat × (Nat ⊕ Unit) :=
  if i < len then ([], .inl ((i + 4) % 65536)) else ([], .inr ())

/-- "Skip host name", with `e - p` bytes left. -/
def skipHostName (m : Contents) : Nat → Nat → Logged Nat Nat
  | 0, p => return p
  | left + 1, p => do
    touch [p]
    if m p = 0 then return p else skipHostName m left (p + 1)

/-- "Skip possible name in CNAME answer": the loop, with `e - &p[12]` bytes left. -/
def skipOwnerLoop (m : Contents) : Nat → Nat → Logged Nat Nat
  | 0, p => do
    touch [p]
    return p
  | left + 1, p => do
    touch [p]
    if m p = 0 then return p else skipOwnerLoop m left (p + 1)

/-- "Skip possible name in CNAME answer": where a pointer would stand in front of the type. -/
def skipOwner (m : Contents) (len p : Nat) : Logged Nat Nat := do
  touch [p]
  if m p ≠ 0xc0 then
    let q ← skipOwnerLoop m (len - (p + 12)) p
    return q - 1
  else return p

/-- One pass of the loop through the answers: at the end it has found an A record, or none. -/
def dnsPass (m : Contents) (len p : Nat) : List Nat × (Nat ⊕ Option Nat) :=
  if p + 12 < len then
    let owner := skipOwner m len p
    let q := owner.value
    if word m (q + 2) = dnsCnameRecord then
      (owner.log ++ [q + 2, q + 3, q + 10, q + 11], .inl (q + 12 + word m (q + 10)))
    else if word m (q + 2) = dnsARecord then (owner.log ++ [q + 2, q + 3], .inr (some q))
    else (owner.log ++ [q + 2, q + 3], .inr none)
  else ([], .inr none)

/-- The header and the question: the first answer, or the outcome without one. -/
def dnsQuestion (m : Contents) (len : Nat) : Logged Nat (Nat ⊕ DnsOutcome) := do
  touch [4, 5]
  if word m 4 ≠ 1 then return .inr .ignored
  else
    touch [6, 7]
    if word m 6 = 0 then return .inr .noAnswers
    else
      let p ← skipHostName m (len - 12) 12
      touch [p + 1, p + 2]
      if len < p + 5 ∨ word m (p + 1) ≠ dnsARecord then return .inr .noARecord
      else return .inl (p + 5)

/-- "if (found && &p[12] < e)" -/
def dnsAddress (m : Contents) (len : Nat) : Option Nat → Logged Nat DnsOutcome
  | none => return .notFound
  | some p =>
    if p + 12 < len then do
      touch [p + 10, p + 11]
      touch (List.range' (p + 12) 4)
      if p + 12 + word m (p + 10) ≤ len then return .address (netReadIP m (p + 12))
      else return .invalid
    else return .notFound

/-- What follows the question, for so many passes. -/
def dnsAnswers (m : Contents) (len fuel : Nat) :
    Nat ⊕ DnsOutcome → Option (List Nat × DnsOutcome)
  | .inr outcome => some ([], outcome)
  | .inl p => (loop (dnsPass m len) fuel p).map fun x =>
    (x.1 ++ (dnsAddress m len x.2).log, (dnsAddress m len x.2).value)

/-- `DnsHandler`, for so many passes of each loop. -/
def dnsHandler (dnsOurPort : Nat) (m : Contents) (dest len fuel : Nat) :
    Option (List Nat × DnsOutcome) :=
  if dest ≠ dnsOurPort then some ([], .ignored)
  else do
    let _ ← loop (debugPass len) fuel 0
    let question := dnsQuestion m len
    let answers ← dnsAnswers m len fuel question.value
    return (question.log ++ answers.1, answers.2)

/-! ## What is read -/

/-- `DnsHandler` comes to an end, with this outcome, and has read bytes of the payload alone. -/
def DnsEnds (dnsOurPort : Nat) (m : Contents) (dest len : Nat) (Q : DnsOutcome → Prop) : Prop :=
  ∃ fuel x, dnsHandler dnsOurPort m dest len fuel = some x ∧ (∀ i ∈ x.1, i < len) ∧ Q x.2

/-- The walk over the answers finds no A record whose address is cut off. -/
inductive AnswersFit (m : Contents) (len : Nat) : Nat → Prop
  | beyond {p : Nat} (short : len ≤ p + 12) : AnswersFit m len p
  | cname {p q : Nat} (inside : p + 12 < len) (owner : q = (skipOwner m len p).value)
      (type : word m (q + 2) = dnsCnameRecord)
      (rest : AnswersFit m len (q + 12 + word m (q + 10))) : AnswersFit m len p
  | address {p q : Nat} (inside : p + 12 < len) (owner : q = (skipOwner m len p).value)
      (type : word m (q + 2) = dnsARecord) (fits : q + 16 ≤ len) : AnswersFit m len p
  | other {p q : Nat} (inside : p + 12 < len) (owner : q = (skipOwner m len p).value)
      (type : word m (q + 2) ≠ dnsCnameRecord ∧ word m (q + 2) ≠ dnsARecord) : AnswersFit m len p

/-- The name of the question ends in the payload, with its type and a byte more. -/
def QuestionFits (m : Contents) (len : Nat) : Prop :=
  ∃ z, 12 ≤ z ∧ z + 2 < len ∧ m z = 0 ∧ (∀ i, 12 ≤ i → i < z → m i ≠ 0) ∧
    (z + 5 ≤ len → word m (z + 1) = dnsARecord → AnswersFit m len (z + 5))

/-- The payload has the fields of the header that are read, and what follows fits. -/
def DnsFits (m : Contents) (len : Nat) : Prop :=
  len ≤ 65532 ∧ 6 ≤ len ∧ (word m 4 = 1 → 8 ≤ len ∧ (word m 6 ≠ 0 → QuestionFits m len))

section Reads

variable {m : Contents} {len p q left i : Nat}

/-! ## The loop around `debug` -/

theorem debugPass_next (h : i < len) : debugPass len i = ([], .inl ((i + 4) % 65536)) := if_pos h

theorem debugPass_stop (h : len ≤ i) : debugPass len i = ([], .inr ()) :=
  if_neg (Nat.not_lt.mpr h)

/-- The counter never gets over 65532. -/
theorem debug_ends_iff :
    Ends (debugPass len) (fun _ => True) (fun _ => True) 0 ↔ len ≤ 65532 := by
  constructor
  · intro h
    by_contra hlong
    refine Ends.induct (motive := fun i => i % 4 = 0 → i < 65536 → False) h ?_ ?_ rfl (by decide)
    · intro i reads r hpass _ _ hmod hlt
      rw [debugPass_next (by omega)] at hpass
      cases hpass
    · intro i reads t hpass _ _ ih hmod hlt
      rw [debugPass_next (by omega)] at hpass
      cases hpass
      exact ih (by omega) (by omega)
  · intro hlen
    have hends : ∀ n i, len - i = n → i % 4 = 0 →
        Ends (debugPass len) (fun _ => True) (fun _ => True) i := by
      intro n
      induction n using Nat.strong_induction_on with
      | _ n ih =>
        intro i hn hmod
        rcases Nat.lt_or_ge i len with hi | hi
        · have hsum : (i + 4) % 65536 = i + 4 := Nat.mod_eq_of_lt (by omega)
          refine (ends_next (debugPass_next hi)).mpr ⟨fun _ _ => trivial, ?_⟩
          rw [hsum]
          exact ih _ (by omega) _ rfl (by omega)
        · exact (ends_stop (debugPass_stop hi)).mpr ⟨fun _ _ => trivial, trivial⟩
    exact hends _ 0 rfl rfl

/-! ## The question -/

theorem skipHostName_all : (skipHostName m left p).All (· < p + left) := by
  induction left generalizing p with
  | zero => exact all_pure _
  | succ left ih =>
    rw [skipHostName, all_bind, all_touch, List.forall_mem_singleton]
    refine ⟨by omega, ?_⟩
    split_ifs
    · exact all_pure _
    · have h : (skipHostName m left (p + 1)).All (· < p + 1 + left) := ih
      rwa [Nat.add_right_comm] at h

/-- The first zero, or the end. -/
theorem skipHostName_value : p ≤ (skipHostName m left p).value ∧
    (∀ i, p ≤ i → i < (skipHostName m left p).value → m i ≠ 0) ∧
    ((skipHostName m left p).value = p + left ∨ m (skipHostName m left p).value = 0) := by
  induction left generalizing p with
  | zero => exact ⟨le_rfl, fun i h h' => absurd h' (Nat.not_lt.mpr h), .inl rfl⟩
  | succ left ih =>
    rw [skipHostName, value_bind]
    split_ifs with hzero
    · exact ⟨le_rfl, fun i h h' => absurd h' (Nat.not_lt.mpr h), .inr hzero⟩
    · obtain ⟨hle, hbefore, hend⟩ := ih (p := p + 1)
      refine ⟨by omega, ?_, ?_⟩
      · intro i hi hlt
        by_cases hip : i = p
        · rw [hip]
          exact hzero
        · exact hbefore i (by omega) hlt
      · rcases hend with hend | hend
        · exact .inl (by omega)
        · exact .inr hend

/-! ## The answers -/

theorem skipOwnerLoop_bounds : (skipOwnerLoop m left p).All (fun i => i < p + left + 1) ∧
    p ≤ (skipOwnerLoop m left p).value ∧ (skipOwnerLoop m left p).value ≤ p + left := by
  induction left generalizing p with
  | zero =>
    refine ⟨?_, le_rfl, le_rfl⟩
    rw [skipOwnerLoop, all_bind, all_touch, List.forall_mem_singleton]
    exact ⟨by omega, all_pure _⟩
  | succ left ih =>
    rw [skipOwnerLoop, all_bind, all_touch, List.forall_mem_singleton, value_bind]
    split_ifs with hzero
    · exact ⟨⟨by omega, all_pure _⟩, le_rfl, by simp⟩
    · obtain ⟨hall, hle, hge⟩ := ih (p := p + 1)
      refine ⟨⟨by omega, ?_⟩, by omega, by omega⟩
      intro i hi
      have h := hall i hi
      omega

theorem skipOwner_bounds (hp : p + 12 < len) : (skipOwner m len p).All (· < len) ∧
    p ≤ (skipOwner m len p).value + 1 ∧ (skipOwner m len p).value + 12 < len := by
  obtain ⟨hall, hle, hge⟩ :
      (skipOwnerLoop m (len - (p + 12)) p).All (fun i => i < p + (len - (p + 12)) + 1) ∧
        p ≤ (skipOwnerLoop m (len - (p + 12)) p).value ∧
        (skipOwnerLoop m (len - (p + 12)) p).value ≤ p + (len - (p + 12)) := skipOwnerLoop_bounds
  rw [skipOwner, all_bind, all_touch, List.forall_mem_singleton, value_bind]
  split_ifs with hpointer
  · rw [all_bind, value_bind, value_pure]
    refine ⟨⟨by omega, ?_, all_pure _⟩, by omega, by omega⟩
    intro i hi
    have h := hall i hi
    omega
  · exact ⟨⟨by omega, all_pure _⟩, by simp, by simpa using hp⟩

theorem dnsPass_beyond (h : len ≤ p + 12) : dnsPass m len p = ([], .inr none) :=
  if_neg (Nat.not_lt.mpr h)

theorem dnsPass_cname (hp : p + 12 < len) (hq : q = (skipOwner m len p).value)
    (htype : word m (q + 2) = dnsCnameRecord) : dnsPass m len p =
      ((skipOwner m len p).log ++ [q + 2, q + 3, q + 10, q + 11],
        .inl (q + 12 + word m (q + 10))) := by
  subst hq
  rw [dnsPass, if_pos hp]
  exact if_pos htype

theorem dnsPass_address (hp : p + 12 < len) (hq : q = (skipOwner m len p).value)
    (htype : word m (q + 2) = dnsARecord) : dnsPass m len p =
      ((skipOwner m len p).log ++ [q + 2, q + 3], .inr (some q)) := by
  subst hq
  rw [dnsPass, if_pos hp]
  simp only
  rw [htype, if_neg (by decide), if_pos rfl]

theorem dnsPass_other (hp : p + 12 < len) (hq : q = (skipOwner m len p).value)
    (htype : word m (q + 2) ≠ dnsCnameRecord ∧ word m (q + 2) ≠ dnsARecord) : dnsPass m len p =
      ((skipOwner m len p).log ++ [q + 2, q + 3], .inr none) := by
  subst hq
  rw [dnsPass, if_pos hp]
  simp only
  rw [if_neg htype.1, if_neg htype.2]

theorem answersFit_cname (hp : p + 12 < len) (hq : q = (skipOwner m len p).value)
    (htype : word m (q + 2) = dnsCnameRecord) :
    AnswersFit m len p ↔ AnswersFit m len (q + 12 + word m (q + 10)) := by
  constructor
  · intro h
    cases h with
    | beyond short => omega
    | cname _ owner _ rest =>
      rw [hq, ← owner]
      exact rest
    | address _ owner type _ =>
      rw [owner, ← hq, htype] at type
      cases type
    | other _ owner type =>
      rw [owner, ← hq] at type
      exact absurd htype type.1
  · exact .cname hp hq htype

theorem answersFit_address (hp : p + 12 < len) (hq : q = (skipOwner m len p).value)
    (htype : word m (q + 2) = dnsARecord) : AnswersFit m len p ↔ q + 16 ≤ len := by
  constructor
  · intro h
    cases h with
    | beyond short => omega
    | cname _ owner type _ =>
      rw [owner, ← hq, htype] at type
      cases type
    | address _ owner _ fits =>
      rw [hq, ← owner]
      exact fits
    | other _ owner type =>
      rw [owner, ← hq] at type
      exact absurd htype type.2
  · exact .address hp hq htype

theorem dnsPass_reads {x : List Nat × (Nat ⊕ Option Nat)} (h : dnsPass m len p = x) :
    ∀ i ∈ x.1, i < len := by
  subst h
  rcases Nat.lt_or_ge (p + 12) len with hp | hp
  · obtain ⟨hreads, -, hhigh⟩ := skipOwner_bounds (m := m) hp
    generalize hq : (skipOwner m len p).value = q at hhigh
    have hread : ∀ is : List Nat, (∀ i ∈ is, i < q + 12) →
        ∀ i ∈ (skipOwner m len p).log ++ is, i < len := by
      intro is his
      refine List.forall_mem_append.mpr ⟨hreads, fun i hi => ?_⟩
      have h := his i hi
      omega
    by_cases hcname : word m (q + 2) = dnsCnameRecord
    · rw [dnsPass_cname hp hq.symm hcname]
      exact hread _ (by simp)
    · by_cases haddress : word m (q + 2) = dnsARecord
      · rw [dnsPass_address hp hq.symm haddress]
        exact hread _ (by simp)
      · rw [dnsPass_other hp hq.symm ⟨hcname, haddress⟩]
        exact hread _ (by simp)
  · rw [dnsPass_beyond hp]
    simp

/-- Behind a pass that is not without a result stands a CNAME record or an A record. -/
theorem dnsPass_cases {reads : List Nat} {after : Nat ⊕ Option Nat}
    (h : dnsPass m len p = (reads, after)) : after = .inr none ∨ p + 12 < len ∧
      ∃ q, q = (skipOwner m len p).value ∧ (word m (q + 2) = dnsCnameRecord ∧
          after = .inl (q + 12 + word m (q + 10)) ∨
        word m (q + 2) = dnsARecord ∧ after = .inr (some q)) := by
  rcases Nat.lt_or_ge (p + 12) len with hp | hp
  · by_cases hcname : word m ((skipOwner m len p).value + 2) = dnsCnameRecord
    · rw [dnsPass_cname hp rfl hcname] at h
      cases h
      exact .inr ⟨hp, _, rfl, .inl ⟨hcname, rfl⟩⟩
    · by_cases haddress : word m ((skipOwner m len p).value + 2) = dnsARecord
      · rw [dnsPass_address hp rfl haddress] at h
        cases h
        exact .inr ⟨hp, _, rfl, .inr ⟨haddress, rfl⟩⟩
      · rw [dnsPass_other hp rfl ⟨hcname, haddress⟩] at h
        cases h
        exact .inl rfl
  · rw [dnsPass_beyond hp] at h
    cases h
    exact .inl rfl

/-- The walk over the answers ends and stays inside, and what it finds is an A record. -/
theorem dnsAnswers_ends (m : Contents) (len p : Nat) : ∃ r,
    Ends (dnsPass m len) (· < len) (· = r) p ∧ (∀ q, r = some q → q + 12 < len) ∧
      (AnswersFit m len p ↔ ∀ q, r = some q → q + 16 ≤ len) := by
  induction hn : len - p using Nat.strong_induction_on generalizing p with
  | _ n ih =>
    rcases Nat.lt_or_ge (p + 12) len with hp | hp
    · obtain ⟨-, hlow, hhigh⟩ := skipOwner_bounds (m := m) hp
      generalize hq : (skipOwner m len p).value = q at hlow hhigh
      by_cases hcname : word m (q + 2) = dnsCnameRecord
      · have hpass := dnsPass_cname hp hq.symm hcname
        obtain ⟨r, hends, hinside, hfits⟩ := ih _ (by omega) (q + 12 + word m (q + 10)) rfl
        exact ⟨r, (ends_next hpass).mpr ⟨dnsPass_reads hpass, hends⟩, hinside,
          (answersFit_cname hp hq.symm hcname).trans hfits⟩
      · by_cases haddress : word m (q + 2) = dnsARecord
        · have hpass := dnsPass_address hp hq.symm haddress
          refine ⟨some q, (ends_stop hpass).mpr ⟨dnsPass_reads hpass, rfl⟩, ?_,
            (answersFit_address hp hq.symm haddress).trans ?_⟩
          · simpa using hhigh
          · simp
        · have hpass := dnsPass_other hp hq.symm ⟨hcname, haddress⟩
          refine ⟨none, (ends_stop hpass).mpr ⟨dnsPass_reads hpass, rfl⟩, by simp, ?_⟩
          exact iff_of_true (.other hp hq.symm ⟨hcname, haddress⟩) (by simp)
    · exact ⟨none, (ends_stop (dnsPass_beyond hp)).mpr ⟨by simp, rfl⟩, by simp,
        iff_of_true (.beyond hp) (by simp)⟩

theorem dnsAddress_all {r : Option Nat} (hinside : ∀ q, r = some q → q + 12 < len) :
    (dnsAddress m len r).All (· < len) ↔ ∀ q, r = some q → q + 16 ≤ len := by
  cases r with
  | none => simp [dnsAddress]
  | some q =>
    have hq := hinside q rfl
    have hread : (∀ i ∈ List.range' (q + 12) 4, i < len) ↔ q + 16 ≤ len := by
      constructor
      · intro h
        exact h (q + 15) (List.mem_range'_1.mpr (by omega))
      · intro h i hi
        have := List.mem_range'_1.mp hi
        omega
    rw [dnsAddress, if_pos hq, all_bind, all_touch, all_bind, all_touch, hread]
    constructor
    · rintro ⟨-, h, -⟩ q' hq'
      cases hq'
      exact h
    · intro h
      refine ⟨by simp; omega, h q rfl, ?_⟩
      split_ifs
      · exact all_pure _
      · exact all_pure _

/-- The end of the name of the question. -/
def questionEnd (m : Contents) (len : Nat) : Nat := (skipHostName m (len - 12) 12).value

theorem dnsQuestion_all : (dnsQuestion m len).All (· < len) ↔ 6 ≤ len ∧
    (word m 4 = 1 → 8 ≤ len ∧ (word m 6 ≠ 0 → questionEnd m len + 2 < len)) := by
  have hname : (skipHostName m (len - 12) 12).All (· < len) := by
    rcases Nat.lt_or_ge len 12 with hlen | hlen
    · rw [Nat.sub_eq_zero_of_le hlen.le]
      exact all_pure _
    · have h : (skipHostName m (len - 12) 12).All (· < 12 + (len - 12)) := skipHostName_all
      rwa [Nat.add_sub_cancel' hlen] at h
  have htwo : ∀ i, (∀ j ∈ [i, i + 1], j < len) ↔ i + 2 ≤ len := by
    intro i
    simp
    omega
  have hrest : ∀ z, (∀ j ∈ [z + 1, z + 2], j < len) ↔ z + 2 < len := by
    intro z
    simp
    omega
  rw [dnsQuestion, all_bind, all_touch, htwo]
  refine and_congr_right fun _ => ?_
  by_cases hquestions : word m 4 = 1
  · rw [if_neg (not_not.mpr hquestions), all_bind, all_touch, htwo, forall_prop_of_true hquestions]
    refine and_congr_right fun _ => ?_
    by_cases hanswers : word m 6 = 0
    · rw [if_pos hanswers]
      exact iff_of_true (all_pure _) fun h => absurd hanswers h
    · rw [if_neg hanswers, all_bind, all_bind, all_touch, hrest]
      constructor
      · rintro ⟨-, h, -⟩ -
        exact h
      · intro h
        refine ⟨hname, h hanswers, ?_⟩
        split_ifs
        · exact all_pure _
        · exact all_pure _
  · rw [if_pos hquestions]
    exact iff_of_true (all_pure _) fun h => absurd h hquestions

theorem dnsQuestion_value : (dnsQuestion m len).value =
    if word m 4 ≠ 1 then .inr .ignored
    else if word m 6 = 0 then .inr .noAnswers
    else if len < questionEnd m len + 5 ∨ word m (questionEnd m len + 1) ≠ dnsARecord then
      .inr .noARecord
    else .inl (questionEnd m len + 5) := by
  rw [dnsQuestion, value_bind]
  by_cases hquestions : word m 4 = 1
  · rw [if_neg (not_not.mpr hquestions), if_neg (not_not.mpr hquestions), value_bind]
    by_cases hanswers : word m 6 = 0
    · rw [if_pos hanswers, if_pos hanswers]
      rfl
    · rw [if_neg hanswers, if_neg hanswers, value_bind, value_bind, questionEnd]
      split_ifs <;> rfl
  · rw [if_pos hquestions, if_pos hquestions]
    rfl

theorem questionEnd_eq {z : Nat} (hz : 12 ≤ z) (hinside : z < len) (hzero : m z = 0)
    (hfirst : ∀ i, 12 ≤ i → i < z → m i ≠ 0) : questionEnd m len = z := by
  obtain ⟨hle, hbefore, hend⟩ : 12 ≤ questionEnd m len ∧
      (∀ i, 12 ≤ i → i < questionEnd m len → m i ≠ 0) ∧
      (questionEnd m len = 12 + (len - 12) ∨ m (questionEnd m len) = 0) := skipHostName_value
  rcases Nat.lt_trichotomy (questionEnd m len) z with h | h | h
  · rcases hend with hend | hend
    · omega
    · exact absurd hend (hfirst _ hle h)
  · exact h
  · exact absurd hzero (hbefore z hz h)

theorem questionFits_iff : QuestionFits m len ↔ questionEnd m len + 2 < len ∧
    (questionEnd m len + 5 ≤ len → word m (questionEnd m len + 1) = dnsARecord →
      AnswersFit m len (questionEnd m len + 5)) := by
  constructor
  · rintro ⟨z, hz, hinside, hzero, hfirst, hrest⟩
    rw [questionEnd_eq hz (by omega) hzero hfirst]
    exact ⟨hinside, hrest⟩
  · rintro ⟨hinside, hrest⟩
    obtain ⟨hle, hbefore, hend⟩ : 12 ≤ questionEnd m len ∧
        (∀ i, 12 ≤ i → i < questionEnd m len → m i ≠ 0) ∧
        (questionEnd m len = 12 + (len - 12) ∨ m (questionEnd m len) = 0) := skipHostName_value
    refine ⟨questionEnd m len, hle, hinside, ?_, hbefore, hrest⟩
    rcases hend with hend | hend
    · omega
    · exact hend

end Reads

/-! ## The handler -/

section Handler

variable {dnsOurPort dest len : Nat} {m : Contents} {Q : DnsOutcome → Prop}

/-- What the handler does behind the question. -/
def AnswersEnd (m : Contents) (len : Nat) (Q : DnsOutcome → Prop) : Nat ⊕ DnsOutcome → Prop
  | .inr outcome => Q outcome
  | .inl p => ∃ r, Ends (dnsPass m len) (· < len) (· = r) p ∧
    (dnsAddress m len r).All (· < len) ∧ Q (dnsAddress m len r).value

/-- The parts of the handler. -/
theorem dnsEnds_iff : DnsEnds dnsOurPort m dnsOurPort len Q ↔ len ≤ 65532 ∧
    (dnsQuestion m len).All (· < len) ∧ AnswersEnd m len Q (dnsQuestion m len).value := by
  rw [← debug_ends_iff]
  constructor
  · rintro ⟨fuel, x, hx, hreads, hQ⟩
    rw [dnsHandler, if_neg (not_not.mpr rfl)] at hx
    obtain ⟨⟨reads, u⟩, hdebug, hx⟩ := Option.bind_eq_some_iff.mp hx
    obtain ⟨answers, hanswers, hx⟩ := Option.bind_eq_some_iff.mp hx
    cases hx
    rw [List.forall_mem_append] at hreads
    refine ⟨⟨fuel, _, hdebug, fun _ _ => trivial, trivial⟩, hreads.1, ?_⟩
    cases hvalue : (dnsQuestion m len).value with
    | inr outcome =>
      rw [hvalue] at hanswers
      cases hanswers
      exact hQ
    | inl p =>
      rw [hvalue, dnsAnswers, Option.map_eq_some_iff] at hanswers
      obtain ⟨y, hy, rfl⟩ := hanswers
      have hreads' := List.forall_mem_append.mp hreads.2
      exact ⟨y.2, ⟨fuel, y, hy, hreads'.1, rfl⟩, hreads'.2, hQ⟩
  · rintro ⟨⟨fuel, ⟨reads, u⟩, hdebug, -, -⟩, hquestion, hanswers⟩
    cases hvalue : (dnsQuestion m len).value with
    | inr outcome =>
      rw [hvalue] at hanswers
      refine ⟨fuel, ((dnsQuestion m len).log ++ [], outcome), ?_, ?_, hanswers⟩
      · rw [dnsHandler, if_neg (not_not.mpr rfl), hdebug]
        simp only [hvalue, dnsAnswers, Option.bind_eq_bind, Option.bind_some, Option.pure_def]
      · rw [List.append_nil]
        exact hquestion
    | inl p =>
      rw [hvalue] at hanswers
      obtain ⟨r, ⟨fuel', y, hy, hreads, hr⟩, haddress, hQ⟩ := hanswers
      refine ⟨max fuel fuel', ((dnsQuestion m len).log ++ (y.1 ++ (dnsAddress m len r).log),
        (dnsAddress m len r).value), ?_, ?_, hQ⟩
      · rw [dnsHandler, if_neg (not_not.mpr rfl), loop_mono hdebug (Nat.le_max_left _ _)]
        simp only [hvalue, dnsAnswers, loop_mono hy (Nat.le_max_right fuel fuel'), hr,
          Option.bind_eq_bind, Option.bind_some, Option.pure_def, Option.map_some]
      · exact List.forall_mem_append.mpr ⟨hquestion, List.forall_mem_append.mpr ⟨hreads, haddress⟩⟩

theorem answersEnd_iff {start : Nat ⊕ DnsOutcome} : AnswersEnd m len (fun _ => True) start ↔
    ∀ p, start = .inl p → AnswersFit m len p := by
  cases start with
  | inr outcome => simp [AnswersEnd]
  | inl p =>
    obtain ⟨r, hends, hinside, hfits⟩ := dnsAnswers_ends m len p
    constructor
    · rintro ⟨r', hends', haddress, -⟩ p' hp'
      cases hp'
      obtain ⟨-, x, -, -, hr, hr'⟩ := hends.and hends'
      rw [← hr', hr] at haddress
      exact hfits.mpr ((dnsAddress_all hinside).mp haddress)
    · intro h
      exact ⟨r, hends, (dnsAddress_all hinside).mpr (hfits.mp (h p rfl)), trivial⟩

/-- The handler stays inside of the payload exactly for the payloads that fit. -/
theorem dnsHandler_safe_iff : DnsEnds dnsOurPort m dest len (fun _ => True) ↔
    (dest = dnsOurPort → DnsFits m len) := by
  by_cases hdest : dest = dnsOurPort
  · subst hdest
    rw [dnsEnds_iff, answersEnd_iff, dnsQuestion_all, dnsQuestion_value, DnsFits, questionFits_iff,
      forall_prop_of_true rfl]
    refine and_congr_right fun _ => ?_
    by_cases hquestions : word m 4 = 1
    · by_cases hanswers : word m 6 = 0
      · simp [hquestions, hanswers]
      · rw [if_neg (not_not.mpr hquestions), if_neg hanswers]
        simp only [hquestions, hanswers, forall_const, ne_eq, not_false_eq_true]
        have hstart : (∀ p, (if len < questionEnd m len + 5 ∨
              ¬ word m (questionEnd m len + 1) = dnsARecord then .inr .noARecord
              else .inl (questionEnd m len + 5) : Nat ⊕ DnsOutcome) = .inl p →
              AnswersFit m len p) ↔
            (questionEnd m len + 5 ≤ len → word m (questionEnd m len + 1) = dnsARecord →
              AnswersFit m len (questionEnd m len + 5)) := by
          constructor
          · intro h hinside htype
            refine h _ (if_neg ?_)
            rintro (hshort | hother)
            · omega
            · exact hother htype
          · intro h p hp
            split_ifs at hp with hend
            cases hp
            rw [not_or, not_lt, not_not] at hend
            exact h hend.1 hend.2
        rw [hstart]
        simp only [and_assoc]
    · simp [hquestions]
  · refine iff_of_true ⟨0, ([], .ignored), if_pos hdest, by simp, trivial⟩ fun h => absurd h hdest

end Handler

end UBoot.Net
