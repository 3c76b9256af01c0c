import Mathlib.Data.List.GetD
import UBoot.Net.Dns

/-!
# The address in a DNS answer

A response to the query of `DnsSend`: the question, some CNAME records, an A record, and anything
behind it (`DnsResponse`).  The name of a record is skipped by a search for a zero byte, which is
the last byte of the name for labels that end in a zero, and the first byte of the type for labels
that end in a pointer; in the second case the type is read one byte too late.  `dnsHandler_right`
says for which names the address of the first A record is found.
-/

namespace UBoot.Net

open UBoot.Lib UBoot.LibGeneric

/-! ## Responses -/

/-- A name: its labels, and a pointer behind them or none. -/
structure DnsName where
  labels : List Bytes
  pointer : Option (UInt8 × UInt8)

/-- Every label with its length in front. -/
def encodeLabels (labels : List Bytes) : Bytes :=
  labels.flatMap fun label => UInt8.ofNat label.length :: label

/-- The end of a name. -/
def encodePointer : Option (UInt8 × UInt8) → Bytes
  | none => [0]
  | some (high, low) => [high, low]

def DnsName.encode (n : DnsName) : Bytes := encodeLabels n.labels ++ encodePointer n.pointer

/-- Labels of 1 to 63 bytes, and two bits set in a pointer. -/
structure DnsName.WellFormed (n : DnsName) : Prop where
  labels : ∀ label ∈ n.labels, 1 ≤ label.length ∧ label.length ≤ 63
  pointer : ∀ high low, n.pointer = some (high, low) → 0xc0 ≤ high

/-- A resource record without its type. -/
structure DnsRecord where
  owner : DnsName
  ttl : Bytes
  rdata : Bytes

/-- What stands behind the name. -/
def DnsRecord.fields (type : Nat) (r : DnsRecord) : Bytes :=
  htons type ++ htons 1 ++ r.ttl ++ htons r.rdata.length ++ r.rdata

/-- A record of the class IN. -/
def DnsRecord.encode (type : Nat) (r : DnsRecord) : Bytes := r.owner.encode ++ r.fields type

structure DnsRecord.WellFormed (r : DnsRecord) : Prop where
  owner : r.owner.WellFormed
  ttl : r.ttl.length = 4
  rdata : r.rdata.length < 65536

/-- CNAME records and an A record, and what follows. -/
def answersOf (cnames : List DnsRecord) (address : DnsRecord) (rest : Bytes) : Bytes :=
  cnames.flatMap (DnsRecord.encode dnsCnameRecord) ++ (address.encode dnsARecord ++ rest)

/-- A response: `tid` and `flags`, `nanswers`, `nauth` and `nother`, the labels of the question, and
the answers up to the first A record. -/
structure DnsResponse where
  opening : Bytes
  nanswers : Nat
  others : Bytes
  question : List Bytes
  cnames : List DnsRecord
  address : DnsRecord
  rest : Bytes

/-- The header and the question. -/
def DnsResponse.front (r : DnsResponse) : Bytes :=
  r.opening ++ htons 1 ++ htons r.nanswers ++ r.others ++
    (encodeLabels r.question ++ [0]) ++ htons dnsARecord ++ htons 1

/-- The records. -/
def DnsResponse.records (r : DnsResponse) : Bytes := answersOf r.cnames r.address r.rest

def DnsResponse.encode (r : DnsResponse) : Bytes := r.front ++ r.records

/-- A response that fits into a datagram, for the name in the query, which is a string. -/
structure DnsResponse.WellFormed (r : DnsResponse) : Prop where
  opening : r.opening.length = 4
  nanswers : r.cnames.length + 1 ≤ r.nanswers ∧ r.nanswers < 65536
  others : r.others.length = 4
  question : ∀ label ∈ r.question, (1 ≤ label.length ∧ label.length ≤ 63) ∧ 0 ∉ label
  cnames : ∀ c ∈ r.cnames, c.WellFormed ∧ ∃ target : DnsName, target.WellFormed ∧
    c.rdata = target.encode
  address : r.address.WellFormed ∧ r.address.rdata.length = 4
  size : r.encode.length ≤ 65527

/-- A pointer into the first 256 bytes, or labels without zeros in front of a zero or of a pointer
whose second byte is zero. -/
def DnsName.Plain (n : DnsName) : Prop :=
  (n.labels = [] ∧ ∃ low, n.pointer = some (0xc0, low)) ∨
    ((∀ label ∈ n.labels, 0 ∉ label) ∧
      (n.pointer = none ∨ ∃ high, n.pointer = some (high, 0)))

/-- The names up to the first A record are plain. -/
def DnsResponse.Plain (r : DnsResponse) : Prop :=
  (∀ c ∈ r.cnames, c.owner.Plain) ∧ r.address.owner.Plain

/-- No label of these names has a zero in it. -/
def DnsResponse.NoZeros (r : DnsResponse) : Prop :=
  (∀ c ∈ r.cnames, ∀ label ∈ c.owner.labels, 0 ∉ label) ∧
    ∀ label ∈ r.address.owner.labels, 0 ∉ label

/-- The bytes are in memory from `p` on. -/
def HoldsAt (m : Contents) (p : Nat) (s : Bytes) : Prop := ∀ i < s.length, m (p + i) = s.getD i 0

/-- With names that end where the code says, the walk over the answers comes to an A record with
this address. -/
inductive AddressFound (m : Contents) (len : Nat) (rdata : Bytes) : Nat → Prop
  | cname {p q : Nat} (inside : p + 12 < len) (owner : q = (skipOwner m len p).value)
      (type : word m (q + 2) = dnsCnameRecord)
      (rest : AddressFound m len rdata (q + 12 + word m (q + 10))) : AddressFound m len rdata p
  | address {p q : Nat} (inside : p + 12 < len) (owner : q = (skipOwner m len p).value)
      (type : word m (q + 2) = dnsARecord) (fits : q + 16 ≤ len)
      (valid : q + 12 + word m (q + 10) ≤ len) (bytes : readAt m (q + 12) 4 = rdata) :
      AddressFound m len rdata p

/-- The handler has read bytes of the payload alone, and what it prints and stores is the address of
the first A record. -/
def AnswerRight (dnsOurPort : Nat) (m : Contents) (len : Nat) (r : DnsResponse) : Prop :=
  DnsEnds dnsOurPort m dnsOurPort len fun outcome =>
    ∃ ip, ipBytes ip = r.address.rdata ∧ outcome = .address ip ∧
      ∀ netDNSenvvar, dnsSetenv netDNSenvvar outcome =
        netDNSenvvar.map fun name => (name, ipToString ip)

/-! ## Bytes in memory -/

section Memory

variable {m : Contents} {p n len left k : Nat} {s t : Bytes}

theorem holdsAt_append : HoldsAt m p (s ++ t) ↔ HoldsAt m p s ∧ HoldsAt m (p + s.length) t := by
  constructor
  · intro h
    constructor
    · intro i hi
      rw [h i (by rw [List.length_append]; omega), List.getD_append _ _ _ _ hi]
    · intro i hi
      rw [Nat.add_assoc, h (s.length + i) (by rw [List.length_append]; omega),
        List.getD_append_right _ _ _ _ (by omega), Nat.add_sub_cancel_left]
  · rintro ⟨hs, ht⟩ i hi
    rw [List.length_append] at hi
    rcases Nat.lt_or_ge i s.length with hlt | hge
    · rw [hs i hlt, List.getD_append _ _ _ _ hlt]
    · have h := ht (i - s.length) (by omega)
      rw [Nat.add_assoc, Nat.add_sub_cancel' hge] at h
      rw [h, List.getD_append_right _ _ _ _ hge]

/-- A number of 16 bits in memory. -/
theorem word_of_holds (hn : n < 65536) (h : HoldsAt m p (htons n)) : word m p = n := by
  have h0 : m p = UInt8.ofNat (n / 256) := h 0 Nat.zero_lt_two
  have h1 : m (p + 1) = UInt8.ofNat n := h 1 Nat.one_lt_two
  rw [word, h0, h1, UInt8.toNat_ofNat', UInt8.toNat_ofNat']
  omega

theorem not_mem_of_holds (h : HoldsAt m p s) (hzero : 0 ∉ s) : ∀ i < s.length, m (p + i) ≠ 0 := by
  intro i hi
  rw [h i hi, List.getD_eq_getElem _ _ hi]
  intro hz
  exact hzero (hz ▸ List.getElem_mem hi)

theorem readAt_of_holds (h : HoldsAt m p s) : readAt m p s.length = s := by
  apply List.ext_getElem (length_readAt m p s.length)
  intro i hi hi'
  have hbyte : m (p + 1 * i) = s[i] := by
    rw [Nat.one_mul, h i hi', List.getD_eq_getElem _ _ hi']
  simpa [readAt] using hbyte

/-- The search goes to the first zero. -/
theorem skipOwnerLoop_zero (hbefore : ∀ i < k, m (p + i) ≠ 0) (hzero : m (p + k) = 0)
    (hk : k ≤ left) : (skipOwnerLoop m left p).value = p + k := by
  induction k generalizing p left with
  | zero =>
    cases left with
    | zero => rfl
    | succ left =>
      rw [Nat.add_zero] at hzero
      rw [skipOwnerLoop, value_bind, if_pos hzero]
      rfl
  | succ k ih =>
    cases left with
    | zero => omega
    | succ left =>
      have hfirst : m p ≠ 0 := hbefore 0 (by omega)
      rw [skipOwnerLoop, value_bind, if_neg hfirst, ih, Nat.add_right_comm, Nat.add_assoc]
      · intro i hi
        have h := hbefore (i + 1) (by omega)
        rwa [← Nat.add_assoc, Nat.add_right_comm] at h
      · rwa [← Nat.add_assoc, Nat.add_right_comm] at hzero
      · omega

theorem skipOwner_zero (hpointer : m p ≠ 0xc0) (hbefore : ∀ i < k, m (p + i) ≠ 0)
    (hzero : m (p + k) = 0) (hk : p + k + 12 ≤ len) (hpos : 1 ≤ p + k) :
    (skipOwner m len p).value + 1 = p + k := by
  rw [skipOwner, value_bind, if_pos hpointer, value_bind, value_pure,
    skipOwnerLoop_zero hbefore hzero (by omega)]
  omega

theorem skipOwner_pointer (hpointer : m p = 0xc0) : (skipOwner m len p).value = p := by
  rw [skipOwner, value_bind, if_neg (not_not.mpr hpointer)]
  rfl

end Memory

/-! ## Names -/

section Names

variable {m : Contents} {p len : Nat} {labels : List Bytes} {n : DnsName}

theorem encodeLabels_cons (label : Bytes) : encodeLabels (label :: labels) =
    UInt8.ofNat label.length :: (label ++ encodeLabels labels) := rfl

theorem toNat_label {label : Bytes} (h : label.length ≤ 63) :
    (UInt8.ofNat label.length).toNat = label.length := by
  rw [UInt8.toNat_ofNat', Nat.mod_eq_of_lt (by omega)]

/-- Labels of host names have no zeros. -/
theorem zero_not_mem_encodeLabels
    (h : ∀ label ∈ labels, (1 ≤ label.length ∧ label.length ≤ 63) ∧ 0 ∉ label) :
    0 ∉ encodeLabels labels := by
  induction labels with
  | nil => exact List.not_mem_nil
  | cons label labels ih =>
    obtain ⟨⟨hmin, hmax⟩, hlabel⟩ := h label List.mem_cons_self
    have hlength : (0 : UInt8) ≠ UInt8.ofNat label.length := by
      intro hz
      have hnat := toNat_label hmax
      rw [← hz] at hnat
      have hzero : (0 : UInt8).toNat = 0 := rfl
      omega
    rw [encodeLabels_cons, List.mem_cons, List.mem_append]
    rintro (hz | hz | hz)
    · exact hlength hz
    · exact hlabel hz
    · exact ih (fun l hl => h l (List.mem_cons_of_mem label hl)) hz

theorem DnsName.Plain.noZeros (h : n.Plain) : ∀ label ∈ n.labels, 0 ∉ label := by
  rcases h with ⟨hnil, -⟩ | ⟨hzeros, -⟩
  · rw [hnil]
    exact fun label hl => absurd hl List.not_mem_nil
  · exact hzeros

theorem DnsResponse.Plain.noZeros {r : DnsResponse} (h : r.Plain) : r.NoZeros :=
  ⟨fun c hc => (h.1 c hc).noZeros, h.2.noZeros⟩

theorem encode_ne_nil : 0 < n.encode.length := by
  rw [DnsName.encode, List.length_append]
  cases n.pointer with
  | none => exact Nat.succ_pos _
  | some x => exact Nat.succ_pos _

/-- A name that begins with `0xc0` is a pointer. -/
theorem encode_pointer (hw : n.WellFormed) (h : HoldsAt m p n.encode) (hpointer : m p = 0xc0) :
    n.encode.length = 2 := by
  have hfirst : m p = n.encode.getD 0 0 := h 0 encode_ne_nil
  rw [hpointer, DnsName.encode] at hfirst
  rw [DnsName.encode]
  cases hlabels : n.labels with
  | nil =>
    rw [hlabels] at hfirst
    cases hptr : n.pointer with
    | none =>
      rw [hptr] at hfirst
      exact absurd hfirst (by decide)
    | some x => rfl
  | cons label labels =>
    have hmax := (hw.labels label (hlabels ▸ List.mem_cons_self)).2
    rw [hlabels] at hfirst
    have hnat : (0xc0 : UInt8).toNat = (UInt8.ofNat label.length).toNat := congrArg _ hfirst
    rw [toNat_label hmax] at hnat
    have hc0 : (0xc0 : UInt8).toNat = 192 := rfl
    omega

/-- The zero at the end of a plain name is the first one. -/
theorem plain_zero (hw : n.WellFormed) (hplain : n.Plain) (h : HoldsAt m p n.encode)
    (hfirst : m p ≠ 0xc0) : ∃ t, n.encode = t ++ [0] ∧ 0 ∉ t := by
  rcases hplain with ⟨hlabels, low, hpointer⟩ | ⟨hzeros, hend⟩
  · have hbyte : m p = n.encode.getD 0 0 := h 0 encode_ne_nil
    rw [DnsName.encode, hlabels, hpointer] at hbyte
    exact absurd hbyte hfirst
  · have hlabels : 0 ∉ encodeLabels n.labels :=
      zero_not_mem_encodeLabels fun label hl => ⟨hw.labels label hl, hzeros label hl⟩
    rcases hend with hnone | ⟨high, hsome⟩
    · exact ⟨encodeLabels n.labels, by rw [DnsName.encode, hnone]; rfl, hlabels⟩
    · have htag := hw.pointer high 0 hsome
      refine ⟨encodeLabels n.labels ++ [high], ?_, ?_⟩
      · rw [DnsName.encode, hsome, List.append_assoc]
        rfl
      · rw [List.mem_append, List.mem_singleton]
        rintro (hz | rfl)
        · exact hlabels hz
        · exact absurd htag (by decide)

/-- A name that is not plain has no zero at all if its labels have none. -/
theorem zero_not_mem_encode (hw : n.WellFormed) (hplain : ¬ n.Plain)
    (hzeros : ∀ label ∈ n.labels, 0 ∉ label) (h : HoldsAt m p n.encode) :
    0 ∉ n.encode ∧ m p ≠ 0xc0 := by
  have hlabels : 0 ∉ encodeLabels n.labels :=
    zero_not_mem_encodeLabels fun label hl => ⟨hw.labels label hl, hzeros label hl⟩
  cases hpointer : n.pointer with
  | none => exact absurd (.inr ⟨hzeros, .inl hpointer⟩) hplain
  | some x =>
    obtain ⟨high, low⟩ := x
    have hhigh : (0 : UInt8) ≠ high := by
      rintro rfl
      exact absurd (hw.pointer 0 low hpointer) (by decide)
    have hlow : (0 : UInt8) ≠ low := by
      rintro rfl
      exact hplain (.inr ⟨hzeros, .inr ⟨high, hpointer⟩⟩)
    constructor
    · rw [DnsName.encode, hpointer, encodePointer]
      simp only [List.mem_append, List.mem_cons, List.not_mem_nil, or_false]
      rintro (hz | hz | hz)
      exacts [hlabels hz, hhigh hz, hlow hz]
    · intro hfirst
      have hlength := encode_pointer hw h hfirst
      rw [DnsName.encode, hpointer, List.length_append] at hlength
      have hnil : n.labels = [] := by
        cases hl : n.labels with
        | nil => rfl
        | cons label labels =>
          rw [hl, encodeLabels_cons, List.length_cons] at hlength
          have htwo : (encodePointer (some (high, low))).length = 2 := rfl
          omega
      have hbyte : m p = n.encode.getD 0 0 := h 0 encode_ne_nil
      rw [DnsName.encode, hnil, hpointer, hfirst] at hbyte
      have hc0 : high = 0xc0 := hbyte.symm
      exact hplain (.inl ⟨hnil, low, hc0 ▸ hpointer⟩)

/-- Behind a plain name the walk is where it has to be. -/
theorem skipOwner_plain (hw : n.WellFormed) (hplain : n.Plain) (h : HoldsAt m p n.encode)
    (hlen : p + n.encode.length + 11 ≤ len) (hpos : 1 ≤ p) :
    (skipOwner m len p).value + 2 = p + n.encode.length := by
  by_cases hfirst : m p = 0xc0
  · rw [skipOwner_pointer hfirst, encode_pointer hw h hfirst]
  · obtain ⟨t, ht, hzero⟩ := plain_zero hw hplain h hfirst
    rw [ht, List.length_append, List.length_singleton] at hlen ⊢
    rw [ht, holdsAt_append] at h
    have hlast : m (p + t.length) = 0 := h.2 0 Nat.one_pos
    have hskip := skipOwner_zero hfirst (not_mem_of_holds h.1 hzero) hlast
      (by omega : p + t.length + 12 ≤ len) (by omega)
    omega

end Names

/-! ## Records -/

section Records

variable {m : Contents} {p n len type : Nat} {r address : DnsRecord} {cnames : List DnsRecord}
  {rest : Bytes}

theorem length_fields (hw : r.WellFormed) :
    (r.fields type).length = 10 + r.rdata.length := by
  have httl := hw.ttl
  have htons_length : ∀ k, (htons k).length = 2 := fun _ => rfl
  simp only [DnsRecord.fields, List.length_append, htons_length, httl]

/-- The fields of a record in memory; the first byte of the type is zero. -/
theorem fields_at (hw : r.WellFormed) (htype : type < 256) (h : HoldsAt m n (r.fields type)) :
    word m n = type ∧ m n = 0 ∧ word m (n + 1) = type * 256 ∧
      word m (n + 8) = r.rdata.length ∧ HoldsAt m (n + 10) r.rdata := by
  have htons_length : ∀ k, (htons k).length = 2 := fun _ => rfl
  simp only [DnsRecord.fields, holdsAt_append, List.length_append, htons_length, hw.ttl] at h
  obtain ⟨⟨⟨⟨hfirst, hclass⟩, -⟩, hlength⟩, hdata⟩ := h
  have htypeword : word m n = type := word_of_holds (by omega) hfirst
  have hclassword : word m (n + 2) = 1 := word_of_holds (by omega) hclass
  have hhigh : (m n).toNat * 256 + (m (n + 1)).toNat = type := htypeword
  have hclass' : (m (n + 2)).toNat * 256 + (m (n + 2 + 1)).toNat = 1 := hclassword
  have hlow := (m (n + 1)).toNat_lt
  have hfirst0 : (m n).toNat = 0 := by omega
  have hsecond : (m (n + 1)).toNat = type := by omega
  have hthird : (m (n + 2)).toNat = 0 := by omega
  refine ⟨htypeword, UInt8.toNat_inj.mp hfirst0, ?_, word_of_holds hw.rdata hlength, hdata⟩
  have hnext : word m (n + 1) = (m (n + 1)).toNat * 256 + (m (n + 2)).toNat := rfl
  rw [hnext, hsecond, hthird, Nat.add_zero]

theorem length_encode (hw : r.WellFormed) :
    (r.encode type).length = r.owner.encode.length + 10 + r.rdata.length := by
  rw [DnsRecord.encode, List.length_append, length_fields hw, Nat.add_assoc]

/-- Behind a plain name stands the record. -/
theorem record_plain (hw : r.WellFormed) (hplain : r.owner.Plain) (htype : type < 256)
    (h : HoldsAt m p (r.encode type)) (hlen : p + r.owner.encode.length + 11 ≤ len)
    (hpos : 1 ≤ p) : ∃ q, q = (skipOwner m len p).value ∧ word m (q + 2) = type ∧
      word m (q + 10) = r.rdata.length ∧ HoldsAt m (q + 12) r.rdata ∧
      q + 12 + r.rdata.length = p + (r.encode type).length := by
  rw [DnsRecord.encode, holdsAt_append] at h
  have hskip := skipOwner_plain hw.owner hplain h.1 hlen hpos
  obtain ⟨htypeword, -, -, hlength, hdata⟩ := fields_at hw htype h.2
  generalize (skipOwner m len p).value = q at hskip
  rw [← hskip] at htypeword hlength hdata
  refine ⟨q, rfl, htypeword, hlength, hdata, ?_⟩
  rw [length_encode hw]
  omega

/-- Behind another name the type is read one byte too late, and is of no use. -/
theorem owner_plain (hw : r.WellFormed) (hzeros : ∀ label ∈ r.owner.labels, 0 ∉ label)
    (htype : 0 < type ∧ type < 256) (h : HoldsAt m p (r.encode type))
    (hlen : p + r.owner.encode.length + 12 ≤ len) {rdata : Bytes}
    (hfound : AddressFound m len rdata p) : r.owner.Plain := by
  by_contra hplain
  rw [DnsRecord.encode, holdsAt_append] at h
  have hname : 0 < r.owner.encode.length := encode_ne_nil
  obtain ⟨hzero, hfirst⟩ := zero_not_mem_encode hw.owner hplain hzeros h.1
  obtain ⟨-, hhigh, hlate, -, -⟩ := fields_at hw htype.2 h.2
  have hskip := skipOwner_zero hfirst (not_mem_of_holds h.1 hzero) hhigh hlen (by omega)
  have hat : (skipOwner m len p).value + 2 = p + r.owner.encode.length + 1 := by omega
  rw [← hat] at hlate
  cases hfound with
  | cname _ owner type _ =>
    rw [owner, hlate, dnsCnameRecord] at type
    omega
  | address _ owner type _ _ _ =>
    rw [owner, hlate, dnsARecord] at type
    omega

theorem answersOf_cons (c : DnsRecord) : answersOf (c :: cnames) address rest =
    c.encode dnsCnameRecord ++ answersOf cnames address rest := by
  rw [answersOf, answersOf, List.flatMap_cons, List.append_assoc]

theorem length_answersOf (haddress : address.WellFormed) :
    11 ≤ (answersOf cnames address rest).length := by
  have hname : 0 < address.owner.encode.length := encode_ne_nil
  rw [answersOf, List.length_append, List.length_append, length_encode haddress]
  omega

/-- With plain names the walk comes to the first A record. -/
theorem addressFound_plain (hcnames : ∀ c ∈ cnames, c.WellFormed ∧ c.owner.Plain)
    (haddress : address.WellFormed ∧ address.rdata.length = 4) (hplain : address.owner.Plain)
    (h : HoldsAt m p (answersOf cnames address rest))
    (hlen : p + (answersOf cnames address rest).length ≤ len) (hpos : 1 ≤ p) :
    AddressFound m len address.rdata p := by
  induction cnames generalizing p with
  | nil =>
    rw [answersOf, List.flatMap_nil, List.nil_append] at h hlen
    rw [List.length_append] at hlen
    have hlength' : (address.encode dnsARecord).length = _ := length_encode haddress.1
    obtain ⟨q, hq, htype, hlength, hdata, hend⟩ := record_plain haddress.1 hplain (by decide)
      (holdsAt_append.mp h).1 (by omega : _ ≤ len) hpos
    have hbytes := readAt_of_holds hdata
    rw [haddress.2] at hlength hend hbytes
    exact .address (by omega) hq htype (by omega) (by omega) hbytes
  | cons c cnames ih =>
    rw [answersOf_cons] at h hlen
    rw [List.length_append] at hlen
    obtain ⟨hc, hcplain⟩ := hcnames c List.mem_cons_self
    have hmore : 11 ≤ (answersOf cnames address rest).length := length_answersOf haddress.1
    have hlength' : (c.encode dnsCnameRecord).length = _ := length_encode hc
    obtain ⟨q, hq, htype, hlength, -, hend⟩ := record_plain hc hcplain (by decide)
      (holdsAt_append.mp h).1 (by omega : _ ≤ len) hpos
    have hrest := ih (fun c' hc' => hcnames c' (List.mem_cons_of_mem c hc'))
      (holdsAt_append.mp h).2 (by omega) (by omega)
    refine .cname (by omega) hq htype ?_
    rwa [hlength, hend]

theorem addressFound_cname {q : Nat} {rdata : Bytes} (hq : q = (skipOwner m len p).value)
    (htype : word m (q + 2) = dnsCnameRecord) (h : AddressFound m len rdata p) :
    AddressFound m len rdata (q + 12 + word m (q + 10)) := by
  cases h with
  | cname _ owner _ rest =>
    rw [hq, ← owner]
    exact rest
  | address _ owner type _ _ _ =>
    rw [owner, ← hq, htype] at type
    cases type

/-- With other names, whose labels have no zeros, it does not. -/
theorem plain_of_addressFound {rdata : Bytes}
    (hcnames : ∀ c ∈ cnames, c.WellFormed ∧ ∀ label ∈ c.owner.labels, 0 ∉ label)
    (haddress : address.WellFormed ∧ address.rdata.length = 4)
    (hzeros : ∀ label ∈ address.owner.labels, 0 ∉ label)
    (h : HoldsAt m p (answersOf cnames address rest))
    (hlen : p + (answersOf cnames address rest).length ≤ len) (hpos : 1 ≤ p)
    (hfound : AddressFound m len rdata p) :
    (∀ c ∈ cnames, c.owner.Plain) ∧ address.owner.Plain := by
  induction cnames generalizing p with
  | nil =>
    rw [answersOf, List.flatMap_nil, List.nil_append] at h hlen
    rw [List.length_append] at hlen
    have hlength : (address.encode dnsARecord).length = _ := length_encode haddress.1
    refine ⟨by simp, ?_⟩
    exact owner_plain haddress.1 hzeros (by decide) (holdsAt_append.mp h).1 (by omega) hfound
  | cons c cnames ih =>
    rw [answersOf_cons] at h hlen
    rw [List.length_append] at hlen
    obtain ⟨hc, hczeros⟩ := hcnames c List.mem_cons_self
    have hmore : 11 ≤ (answersOf cnames address rest).length := length_answersOf haddress.1
    have hlength' : (c.encode dnsCnameRecord).length = _ := length_encode hc
    have hcplain : c.owner.Plain :=
      owner_plain hc hczeros (by decide) (holdsAt_append.mp h).1 (by omega) hfound
    obtain ⟨q, hq, htype, hlength, -, hend⟩ := record_plain hc hcplain (by decide)
      (holdsAt_append.mp h).1 (by omega : _ ≤ len) hpos
    have hnext := addressFound_cname hq htype hfound
    rw [hlength, hend] at hnext
    have hrest := ih (fun c' hc' => hcnames c' (List.mem_cons_of_mem c hc'))
      (holdsAt_append.mp h).2 (by omega) (by omega) hnext
    exact ⟨List.forall_mem_cons.mpr ⟨hcplain, hrest.1⟩, hrest.2⟩

end Records

/-! ## Addresses that are found -/

section Found

variable {m : Contents} {p n len : Nat} {Q : DnsOutcome → Prop}

/-- What is done with the result of the walk. -/
theorem answersEnd_walk : AnswersEnd m len Q (.inl p) ↔ Ends (dnsPass m len) (· < len)
    (fun r => (dnsAddress m len r).All (· < len) ∧ Q (dnsAddress m len r).value) p := by
  constructor
  · rintro ⟨result, hends, haddress⟩
    refine hends.imp (fun _ hi => hi) ?_
    rintro _ rfl
    exact haddress
  · intro h
    obtain ⟨result, hends, -, -⟩ := dnsAnswers_ends m len p
    obtain ⟨-, x, -, -, hresult, haddress⟩ := hends.and h
    rw [hresult] at haddress
    exact ⟨result, hends, haddress⟩

theorem dnsAddress_value (hp : n + 12 < len) : (dnsAddress m len (some n)).value =
    if n + 12 + word m (n + 10) ≤ len then .address (netReadIP m (n + 12)) else .invalid := by
  rw [dnsAddress, if_pos hp, value_bind, value_bind]
  split_ifs <;> rfl

theorem answersEnd_address {rdata : Bytes} :
    AnswersEnd m len (fun outcome => ∃ ip, ipBytes ip = rdata ∧ outcome = .address ip) (.inl p) ↔
      AddressFound m len rdata p := by
  rw [answersEnd_walk]
  constructor
  · intro h
    refine Ends.induct (motive := AddressFound m len rdata) h ?_ ?_
    · rintro p reads result hpass - ⟨hall, ip, hip, hvalue⟩
      rcases dnsPass_cases hpass with hnone | ⟨hp, q, hq, ⟨-, hnext⟩ | ⟨htype, hsome⟩⟩
      · cases hnone
        cases hvalue
      · cases hnext
      · cases hsome
        have hinside : q + 12 < len := hq ▸ (skipOwner_bounds hp).2.2
        have hfits : q + 16 ≤ len :=
          (dnsAddress_all fun q' hq' => Option.some.inj hq' ▸ hinside).mp hall q rfl
        rw [dnsAddress_value hinside] at hvalue
        split_ifs at hvalue with hvalid
        cases hvalue
        exact .address hp hq htype hfits hvalid (ipBytes_netReadIP.symm.trans hip)
    · rintro p reads t hpass - - ih
      rcases dnsPass_cases hpass with hnone | ⟨hp, q, hq, ⟨htype, hnext⟩ | ⟨-, hsome⟩⟩
      · cases hnone
      · cases hnext
        exact .cname hp hq htype ih
      · cases hsome
  · intro h
    induction h with
    | cname inside owner type _ ih =>
      have hpass := dnsPass_cname inside owner type
      exact (ends_next hpass).mpr ⟨dnsPass_reads hpass, ih⟩
    | @address p q inside owner type fits valid bytes =>
      have hpass := dnsPass_address inside owner type
      have hinside : q + 12 < len := by omega
      refine (ends_stop hpass).mpr ⟨dnsPass_reads hpass, ?_, netReadIP m (q + 12),
        ipBytes_netReadIP.trans bytes, ?_⟩
      · exact (dnsAddress_all fun q' hq' => Option.some.inj hq' ▸ hinside).mpr
          fun q' hq' => Option.some.inj hq' ▸ fits
      · rw [dnsAddress_value hinside, if_pos valid]

end Found

/-! ## Responses in memory -/

section Response

variable {dnsOurPort dest len : Nat} {m : Contents} {r : DnsResponse}

/-- The header and the question of a response, and where the records are. -/
theorem front_at (hw : r.WellFormed) (hlen : len = r.encode.length) (h : HoldsAt m 0 r.encode) :
    word m 4 = 1 ∧ word m 6 = r.nanswers ∧ word m (questionEnd m len + 1) = dnsARecord ∧
      HoldsAt m (questionEnd m len + 5) r.records ∧
      questionEnd m len + 5 + r.records.length = len := by
  have htons_length : ∀ k, (htons k).length = 2 := fun _ => rfl
  simp only [DnsResponse.encode, DnsResponse.front, holdsAt_append, List.length_append,
    htons_length, hw.opening, hw.others, List.length_singleton] at h hlen
  obtain ⟨⟨⟨⟨⟨⟨⟨-, hquestions⟩, hanswers⟩, -⟩, hname, hend⟩, htype⟩, -⟩, hrecords⟩ := h
  have hsize : 0 + (4 + 2 + 2 + 4) = 12 := rfl
  rw [hsize] at hname hend
  have hzero : m (12 + (encodeLabels r.question).length) = 0 := hend 0 Nat.one_pos
  have hquestion : questionEnd m len = 12 + (encodeLabels r.question).length := by
    refine questionEnd_eq (by omega) (by omega) hzero fun i hi hlt => ?_
    have hbyte := not_mem_of_holds hname (zero_not_mem_encodeLabels hw.question) (i - 12) (by omega)
    rwa [Nat.add_sub_cancel' hi] at hbyte
  refine ⟨word_of_holds (by omega) hquestions, word_of_holds hw.nanswers.2 hanswers, ?_, ?_, ?_⟩
  · have hat : 0 + (4 + 2 + 2 + 4 + ((encodeLabels r.question).length + 1)) =
        12 + (encodeLabels r.question).length + 1 := by omega
    rw [hat] at htype
    rw [hquestion]
    exact word_of_holds (by decide) htype
  · have hat : 0 + (4 + 2 + 2 + 4 + ((encodeLabels r.question).length + 1) + 2 + 2) =
        12 + (encodeLabels r.question).length + 5 := by omega
    rwa [hat, ← hquestion] at hrecords
  · omega

/-- What the handler does with a response depends on the walk over the records. -/
theorem dnsEnds_response (hw : r.WellFormed) (hlen : len = r.encode.length)
    (h : HoldsAt m 0 r.encode) {Q : DnsOutcome → Prop} : DnsEnds dnsOurPort m dnsOurPort len Q ↔
      AnswersEnd m len Q (.inl (questionEnd m len + 5)) := by
  obtain ⟨hquestions, hanswers, htype, -, hend⟩ := front_at hw hlen h
  have hsome : word m 6 ≠ 0 := by
    have hpos := hw.nanswers.1
    omega
  have hvalue : (dnsQuestion m len).value = .inl (questionEnd m len + 5) := by
    rw [dnsQuestion_value, if_neg (not_not.mpr hquestions), if_neg hsome, if_neg]
    rintro (hshort | hother)
    · omega
    · exact hother htype
  have hrecords : 11 ≤ r.records.length := length_answersOf hw.address.1
  have hall : (dnsQuestion m len).All (· < len) :=
    dnsQuestion_all.mpr ⟨by omega, fun _ => ⟨by omega, fun _ => by omega⟩⟩
  have hsize : len ≤ 65532 := by
    have hmax := hw.size
    omega
  rw [dnsEnds_iff, hvalue]
  exact ⟨fun hends => hends.2.2, fun hends => ⟨hsize, hall, hends⟩⟩

theorem answerRight_iff (hw : r.WellFormed) (hlen : len = r.encode.length)
    (h : HoldsAt m 0 r.encode) : AnswerRight dnsOurPort m len r ↔
      AddressFound m len r.address.rdata (questionEnd m len + 5) := by
  rw [← answersEnd_address, AnswerRight, dnsEnds_response hw hlen h]
  have hstored : ∀ outcome : DnsOutcome, (∃ ip, ipBytes ip = r.address.rdata ∧
      outcome = .address ip ∧ ∀ netDNSenvvar, dnsSetenv netDNSenvvar outcome =
        netDNSenvvar.map fun name => (name, ipToString ip)) ↔
      ∃ ip, ipBytes ip = r.address.rdata ∧ outcome = .address ip := by
    intro outcome
    constructor
    · rintro ⟨ip, hip, hvalue, -⟩
      exact ⟨ip, hip, hvalue⟩
    · rintro ⟨ip, hip, rfl⟩
      exact ⟨ip, hip, rfl, fun _ => rfl⟩
  simp only [hstored]

theorem answerRight_plain_iff (hw : r.WellFormed) (hlen : len = r.encode.length)
    (h : HoldsAt m 0 r.encode) (hzeros : r.NoZeros) :
    AnswerRight dnsOurPort m len r ↔ r.Plain := by
  obtain ⟨-, -, -, hrecords, hend⟩ := front_at hw hlen h
  rw [answerRight_iff hw hlen h]
  constructor
  · intro hfound
    exact plain_of_addressFound (fun c hc => ⟨(hw.cnames c hc).1, hzeros.1 c hc⟩) hw.address
      hzeros.2 hrecords hend.le (by omega) hfound
  · intro hplain
    exact addressFound_plain (fun c hc => ⟨(hw.cnames c hc).1, hplain.1 c hc⟩) hw.address hplain.2
      hrecords hend.le (by omega)

/-- The handler stays inside of the payloads that fit, and of a response it finds the address if the
names are plain, or if there are zeros in labels and the walk gets to the address by chance. -/
theorem dnsHandler_right :
    (DnsEnds dnsOurPort m dest len (fun _ => True) ↔ (dest = dnsOurPort → DnsFits m len)) ∧
      ∀ r : DnsResponse, r.WellFormed → len = r.encode.length → HoldsAt m 0 r.encode →
        (AnswerRight dnsOurPort m len r ↔ r.Plain ∨
          ¬ r.NoZeros ∧ AddressFound m len r.address.rdata r.front.length) := by
  refine ⟨dnsHandler_safe_iff, fun r hw hlen h => ?_⟩
  have hstart : questionEnd m len + 5 = r.front.length := by
    obtain ⟨-, -, -, -, hend⟩ := front_at hw hlen h
    have hlength : r.encode.length = r.front.length + r.records.length := List.length_append
    omega
  by_cases hzeros : r.NoZeros
  · rw [answerRight_plain_iff hw hlen h hzeros]
    exact ⟨.inl, fun hright => hright.resolve_right fun hnot => hnot.1 hzeros⟩
  · rw [answerRight_iff hw hlen h, hstart]
    exact ⟨fun hfound => .inr ⟨hzeros, hfound⟩, fun hright =>
      hright.elim (fun hplain => absurd hplain.noZeros hzeros) fun hfound => hfound.2⟩

end Response

/-! ### A response to the query for `a` -/

/-- `a` is another name for `b`, and the address has this owner. -/
def aliasResponse (owner : DnsName) : DnsResponse where
  opening := [0, 1, 0x81, 0x80]
  nanswers := 2
  others := [0, 0, 0, 0]
  question := [[97]]
  cnames := [⟨⟨[], some (0xc0, 12)⟩, [0, 0, 0, 60], DnsName.encode ⟨[[98]], none⟩⟩]
  address := ⟨owner, [0, 0, 0, 60], [10, 0, 0, 1]⟩
  rest := []

/-- A payload with nothing but zeros behind it. -/
def payloadOf (s : Bytes) : Contents := fun i => s.getD i 0

theorem holdsAt_payloadOf (s : Bytes) : HoldsAt (payloadOf s) 0 s := by
  intro i _
  rw [Nat.zero_add, payloadOf]

theorem aliasResponse_wellFormed {owner : DnsName} (howner : owner.WellFormed)
    (hlength : owner.encode.length ≤ 255) : (aliasResponse owner).WellFormed where
  opening := rfl
  nanswers := ⟨le_rfl, by simp [aliasResponse]⟩
  others := rfl
  question := by simp [aliasResponse]
  cnames := by
    intro c hc
    cases List.mem_singleton.mp hc
    refine ⟨⟨⟨fun _ h => absurd h List.not_mem_nil, ?_⟩, rfl, ?_⟩, ⟨[[98]], none⟩, ⟨?_, ?_⟩, rfl⟩
    · rintro high low h
      cases h
      decide
    · simp [DnsName.encode, encodeLabels, encodePointer]
    · simp
    · rintro high low h
      cases h
  address := ⟨⟨howner, rfl, by simp [aliasResponse]⟩, rfl⟩
  size := by
    have haddress : ((aliasResponse owner).address.encode dnsARecord).length =
        owner.encode.length + 14 := length_encode ⟨howner, rfl, by simp [aliasResponse]⟩
    have hcnames : ((aliasResponse owner).cnames.flatMap
      (DnsRecord.encode dnsCnameRecord)).length = 15 := rfl
    have hfront : (aliasResponse owner).front.length = 19 := rfl
    have hrest : (aliasResponse owner).rest.length = 0 := rfl
    rw [DnsResponse.encode, DnsResponse.records, answersOf, List.length_append, List.length_append,
      List.length_append, haddress, hcnames, hfront, hrest]
    omega

/-- The address of `b`, spelled out. -/
theorem dnsHandler_right_alias :
    AnswerRight 1024 (payloadOf (aliasResponse ⟨[[98]], none⟩).encode)
      (aliasResponse ⟨[[98]], none⟩).encode.length (aliasResponse ⟨[[98]], none⟩) := by
  have hw : (aliasResponse ⟨[[98]], none⟩).WellFormed :=
    aliasResponse_wellFormed ⟨by simp, fun _ _ h => by cases h⟩ (by decide)
  refine ((@dnsHandler_right 1024 1024 _ _).2 _ hw rfl (holdsAt_payloadOf _)).mpr
    (.inl ⟨?_, .inr ⟨by simp [aliasResponse], .inl rfl⟩⟩)
  intro c hc
  cases List.mem_singleton.mp hc
  exact .inl ⟨rfl, 12, rfl⟩

/-- The address of `www.a`, with a pointer to `a`: the type is read one byte too late. -/
theorem dnsHandler_label_wrong :
    ((aliasResponse ⟨[[119, 119, 119]], some (0xc0, 12)⟩).WellFormed ∧
      HoldsAt (payloadOf (aliasResponse ⟨[[119, 119, 119]], some (0xc0, 12)⟩).encode) 0
        (aliasResponse ⟨[[119, 119, 119]], some (0xc0, 12)⟩).encode) ∧
      ¬ AnswerRight 1024 (payloadOf (aliasResponse ⟨[[119, 119, 119]], some (0xc0, 12)⟩).encode)
        (aliasResponse ⟨[[119, 119, 119]], some (0xc0, 12)⟩).encode.length
        (aliasResponse ⟨[[119, 119, 119]], some (0xc0, 12)⟩) := by
  have hw : (aliasResponse ⟨[[119, 119, 119]], some (0xc0, 12)⟩).WellFormed := by
    refine aliasResponse_wellFormed ⟨by simp, ?_⟩ (by decide)
    rintro high low h
    cases h
    decide
  have hzeros : (aliasResponse ⟨[[119, 119, 119]], some (0xc0, 12)⟩).NoZeros :=
    ⟨by simp [aliasResponse], by simp [aliasResponse]⟩
  refine ⟨⟨hw, holdsAt_payloadOf _⟩, ?_⟩
  rw [answerRight_plain_iff hw rfl (holdsAt_payloadOf _) hzeros]
  rintro ⟨-, ⟨hnil, -⟩ | ⟨-, hnone | ⟨high, hsome⟩⟩⟩
  · cases hnil
  · cases hnone
  · cases hsome

end UBoot.Net
