import UBoot.Net.BootpVendor

/-!
# The options of a DHCP reply

`DhcpMessageType` and `DhcpOptionsProcess` of `net/bootp.c`, without `CONFIG_BOOTP_VENDOREX`.  The
packet is the memory from `bp` on, with whatever is behind its `len` bytes, and the bytes that are
read of it are logged; the options that the `switch` has seen are kept as well, since it names the
ones that it does not know.

Both scanners take a pad for an option with a length, and neither knows the length of the packet.
`dhcp_right_iff` has the packets that they decode as RFC 2132 says (`rfcOptions`).
-/

namespace UBoot.Net

open UBoot.Lib UBoot.LibGeneric

/-! ## The code -/

/-- The options of the configuration that the `switch` depends on. -/
structure DhcpConfig where
  dns2 : Bool
  timeOffset : Bool
  ntpServer : Bool

/-- The variables that are set from options, with `bp->bp_file`. -/
structure DhcpVars where
  netOurSubnetMask : IPaddr
  netTimeOffset : UInt32
  netOurGatewayIP : IPaddr
  netOurDNSIP : IPaddr
  netOurDNS2IP : IPaddr
  netOurHostName : Bytes
  netOurRootPath : Bytes
  netNtpServerIP : IPaddr
  dhcpLeasetime : UInt32
  netDHCPServerIP : IPaddr
  bpFile : Bytes

/-- `bp->bp_file[0]` in the packet. -/
def bootpFile : Nat := 108

/-- `BOOTP_HDR_SIZE`, with the `OPT_SIZE` of `CONFIG_CMD_DHCP`. -/
def bootpHdrSize : Nat := bootpVend + 312

/-- Four bytes in network order, as `NetCopyIP` and `NetCopyLong` copy them. -/
def copyLong (m : Contents) (i : Nat) : Logged Nat UInt32 := do
  touch (List.range' i 4)
  return netReadIP m i

/-- The copy of a name, cut off where its array ends. -/
def copyText (maxlen : Nat) (m : Contents) (i oplen : Nat) (name : Bytes) : Logged Nat Bytes := do
  let size := truncateSz maxlen oplen
  touch (List.range' i size)
  return readAt m i size ++ 0 :: name.drop (size + 1)

/-- `case 6` -/
def dnsOption (cfg : DhcpConfig) (m : Contents) (popt : Nat) (v : DhcpVars) :
    Logged Nat DhcpVars := do
  let ip ← copyLong m (popt + 2)
  if cfg.dns2 ∧ 4 < m (popt + 1) then
    let ip2 ← copyLong m (popt + 6)
    return { v with netOurDNSIP := ip, netOurDNS2IP := ip2 }
  else return { v with netOurDNSIP := ip }

/-- `case 67`: the name of the file goes into the packet if there is none. -/
def fileOption (m : Contents) (popt : Nat) (v : DhcpVars) : Logged Nat DhcpVars := do
  touch [bootpFile]
  if charAt v.bpFile = 0 ∧ 0 < truncateSz 128 (m (popt + 1)).toNat then
    let file ← copyText 128 m (popt + 2) (m (popt + 1)).toNat v.bpFile
    return { v with bpFile := file }
  else return v

/-- One pass of the loop of `DhcpOptionsProcess`, without the step to the next option. -/
def dhcpOption (cfg : DhcpConfig) (m : Contents) (popt : Nat) (v : DhcpVars) :
    Logged Nat DhcpVars := do
  touch [popt + 1, popt]
  let oplen := (m (popt + 1)).toNat
  if m popt = 1 then
    let ip ← copyLong m (popt + 2)
    return { v with netOurSubnetMask := ip }
  else if m popt = 2 ∧ cfg.timeOffset then
    let offset ← copyLong m (popt + 2)
    return { v with netTimeOffset := offset }
  else if m popt = 3 then
    let ip ← copyLong m (popt + 2)
    return { v with netOurGatewayIP := ip }
  else if m popt = 6 then dnsOption cfg m popt v
  else if m popt = 12 then
    let name ← copyText sizeofHostName m (popt + 2) oplen v.netOurHostName
    return { v with netOurHostName := name }
  else if m popt = 17 then
    let name ← copyText sizeofRootPath m (popt + 2) oplen v.netOurRootPath
    return { v with netOurRootPath := name }
  else if m popt = 42 ∧ cfg.ntpServer then
    let ip ← copyLong m (popt + 2)
    return { v with netNtpServerIP := ip }
  else if m popt = 51 then
    let time ← copyLong m (popt + 2)
    return { v with dhcpLeasetime := time }
  else if m popt = 54 then
    let ip ← copyLong m (popt + 2)
    return { v with netDHCPServerIP := ip }
  else if m popt = 67 then fileOption m popt v
  else return v

/-- `popt` as an index, with the variables and the options that the `switch` has seen. -/
structure DhcpScan where
  popt : Nat
  vars : DhcpVars
  seen : List Nat

/-- One pass of the loop of `DhcpOptionsProcess`. -/
def dhcpPass (cfg : DhcpConfig) (m : Contents) (limit : Nat) (s : DhcpScan) :
    List Nat × (DhcpScan ⊕ List Nat × DhcpVars) :=
  if s.popt < limit then
    if m s.popt = 0xff then ([s.popt], .inr (s.seen, s.vars))
    else
      let option := dhcpOption cfg m s.popt s.vars
      (s.popt :: option.log,
        .inl ⟨s.popt + (m (s.popt + 1)).toNat + 2, option.value, s.seen ++ [s.popt]⟩)
  else ([], .inr (s.seen, s.vars))

/-- One pass of the loop of `DhcpMessageType`. -/
def messagePass (m : Contents) (popt : Nat) : List Nat × (Nat ⊕ Int) :=
  if m popt = 0xff then ([popt], .inr (-1))
  else if m popt = 53 then ([popt, popt + 2], .inr (m (popt + 2)).toNat)
  else ([popt, popt + 1], .inl (popt + (m (popt + 1)).toNat + 2))

/-- `DhcpMessageType` for `bp->bp_vend`, for so many passes. -/
def dhcpMessageType (m : Contents) (fuel : Nat) : Option (List Nat × Int) :=
  if readAt m bootpVend 4 ≠ bootpVendorMagic then some (List.range' bootpVend 4, -1)
  else (loop (messagePass m) fuel (bootpVend + 4)).map fun x =>
    (List.range' bootpVend 4 ++ x.1, x.2)

/-- `DhcpOptionsProcess` for `&bp->bp_vend[4]`, for so many passes. -/
def dhcpOptionsProcess (cfg : DhcpConfig) (m : Contents) (v : DhcpVars) (fuel : Nat) :
    Option (List Nat × List Nat × DhcpVars) :=
  loop (dhcpPass cfg m (bootpVend + 4 + bootpHdrSize)) fuel ⟨bootpVend + 4, v, []⟩

/-! ## What the options say -/

/-- The options of RFC 2132 from `p` on: a 0 is a pad, a 255 is the end, and an option that does not
fit is not used. -/
def rfcOptions (m : Contents) (len p : Nat) : List Nat :=
  if p < len then
    if m p = 0 then rfcOptions m len (p + 1)
    else if m p = 0xff then []
    else if p + (m (p + 1)).toNat + 2 ≤ len then
      p :: rfcOptions m len (p + (m (p + 1)).toNat + 2)
    else []
  else []
termination_by len - p

/-- The value of the first message type, which has a byte at least. -/
def rfcMessageType (m : Contents) (options : List Nat) : Int :=
  match (options.filter fun p => m p = 53 ∧ 1 ≤ m (p + 1)).head? with
  | some p => (m (p + 2)).toNat
  | none => -1

/-- The variables of the options. -/
inductive DhcpVar
  | subnetMask
  | gatewayIP
  | dnsIP
  | hostName
  | rootPath
  | leasetime
  | serverIP
  deriving DecidableEq

/-- The code of its option. -/
def DhcpVar.code : DhcpVar → UInt8
  | .subnetMask => 1
  | .gatewayIP => 3
  | .dnsIP => 6
  | .hostName => 12
  | .rootPath => 17
  | .leasetime => 51
  | .serverIP => 54

/-- The lengths that its option may have. -/
def DhcpVar.wellFormed (k : DhcpVar) (size : Nat) : Bool :=
  match k with
  | .subnetMask | .leasetime | .serverIP => size = 4
  | .gatewayIP | .dnsIP => 4 ≤ size ∧ size % 4 = 0
  | .hostName | .rootPath => 1 ≤ size

/-- The text up to the terminator. -/
def textOf (name : Bytes) : Bytes := name.takeWhile (· ≠ 0)

/-- The value of the option at `p`: an address, or a name as far as it fits into its array. -/
def optionValue (m : Contents) (k : DhcpVar) (p : Nat) : Bytes :=
  match k with
  | .hostName => textOf (readAt m (p + 2) (truncateSz sizeofHostName (m (p + 1)).toNat))
  | .rootPath => textOf (readAt m (p + 2) (truncateSz sizeofRootPath (m (p + 1)).toNat))
  | _ => readAt m (p + 2) 4

/-- The value of a variable. -/
def DhcpVars.value (v : DhcpVars) : DhcpVar → Bytes
  | .subnetMask => ipBytes v.netOurSubnetMask
  | .gatewayIP => ipBytes v.netOurGatewayIP
  | .dnsIP => ipBytes v.netOurDNSIP
  | .hostName => textOf v.netOurHostName
  | .rootPath => textOf v.netOurRootPath
  | .leasetime => ipBytes v.dhcpLeasetime
  | .serverIP => ipBytes v.netDHCPServerIP

/-- The value of the last option that meets a condition, or the old one. -/
def lastValue (m : Contents) (k : DhcpVar) (ok : Nat → Bool) (options : List Nat) (old : Bytes) :
    Bytes :=
  match (options.filter ok).getLast? with
  | some p => optionValue m k p
  | none => old

/-- An option for a variable. -/
def isFor (m : Contents) (k : DhcpVar) (p : Nat) : Bool := m p = k.code

/-- A well-formed one. -/
def isWellFormed (m : Contents) (k : DhcpVar) (p : Nat) : Bool :=
  isFor m k p && k.wellFormed (m (p + 1)).toNat

/-- Both scanners come to an end and read bytes of the packet alone; the message type is the first
one, the options that are seen are the options of the packet, and every variable has the value of
its last well-formed option. -/
def DhcpRight (cfg : DhcpConfig) (m : Contents) (len : Nat) (v : DhcpVars) : Prop :=
  (∃ fuel x, dhcpMessageType m fuel = some x ∧ (∀ i ∈ x.1, i < len) ∧
    x.2 = rfcMessageType m (rfcOptions m len (bootpVend + 4))) ∧
  ∃ fuel x, dhcpOptionsProcess cfg m v fuel = some x ∧ (∀ i ∈ x.1, i < len) ∧
    x.2.1 = rfcOptions m len (bootpVend + 4) ∧
    ∀ k, x.2.2.value k =
      lastValue m k (isWellFormed m k) (rfcOptions m len (bootpVend + 4)) (v.value k)

/-! ## The packets that are decoded -/

/-- Bytes that are copied whatever the length of the option is. -/
def fixedEnd (cfg : DhcpConfig) (m : Contents) (p : Nat) : Nat :=
  if m p = 1 ∨ m p = 3 ∨ m p = 51 ∨ m p = 54 ∨ (m p = 2 ∧ cfg.timeOffset) ∨
    (m p = 42 ∧ cfg.ntpServer) then p + 6
  else if m p = 6 then if cfg.dns2 ∧ 4 < m (p + 1) then p + 10 else p + 6
  else p + 2

/-- In steps of a length and two bytes, an end mark in the packet with no message type in front. -/
inductive MarkAhead (m : Contents) (len : Nat) : Nat → Prop
  | mark {p : Nat} (inside : p < len) (mark : m p = 0xff) : MarkAhead m len p
  | next {p : Nat} (inside : p + 1 < len) (code : m p ≠ 0xff ∧ m p ≠ 53)
      (rest : MarkAhead m len (p + (m (p + 1)).toNat + 2)) : MarkAhead m len p

/-- From `p` on there are options without pads between them up to an end mark, or to the end of the
scan if nothing else is left.  What `found` says is that there has been a message type. -/
inductive DhcpFits (cfg : DhcpConfig) (m : Contents) (len : Nat) : Bool → Nat → Prop
  | mark {found : Bool} {p : Nat} (below : p < bootpVend + 4 + bootpHdrSize) (inside : p < len)
      (mark : m p = 0xff) : DhcpFits cfg m len found p
  | limit {found : Bool} {p : Nat} (limit : bootpVend + 4 + bootpHdrSize ≤ p)
      (nothing : rfcOptions m len p = []) (ahead : found = false → MarkAhead m len p) :
      DhcpFits cfg m len found p
  | option {found : Bool} {p : Nat} (below : p < bootpVend + 4 + bootpHdrSize)
      (code : m p ≠ 0 ∧ m p ≠ 0xff) (fits : p + (m (p + 1)).toNat + 2 ≤ len)
      (fixed : fixedEnd cfg m p ≤ len)
      (message : found = false → m p = 53 → m (p + 1) = 0 → p + 2 < len ∧
        ((m (p + 2)).toNat : Int) = rfcMessageType m (rfcOptions m len (p + 2)))
      (rest : DhcpFits cfg m len (found || m p = 53) (p + (m (p + 1)).toNat + 2)) :
      DhcpFits cfg m len found p

/-- The last option for a variable is well-formed, or its value is right all the same. -/
def LastFits (m : Contents) (options : List Nat) (k : DhcpVar) (old : Bytes) : Prop :=
  ∀ p, (options.filter (isFor m k)).getLast? = some p → k.wellFormed (m (p + 1)).toNat = true ∨
    optionValue m k p = lastValue m k (isWellFormed m k) options old

/-! ## The list of RFC 2132 -/

section List

variable {m : Contents} {len p q : Nat} {k : DhcpVar} {ok : Nat → Bool} {options : List Nat}
  {old : Bytes}

theorem rfcOptions_mark (hmark : m p = 0xff) : rfcOptions m len p = [] := by
  have hzero : ¬ m p = 0 := by
    rw [hmark]
    decide
  rw [rfcOptions, if_neg hzero, if_pos hmark, ite_self]

theorem rfcOptions_option (hcode : m p ≠ 0 ∧ m p ≠ 0xff)
    (hfits : p + (m (p + 1)).toNat + 2 ≤ len) :
    rfcOptions m len p = p :: rfcOptions m len (p + (m (p + 1)).toNat + 2) := by
  rw [rfcOptions, if_pos (by omega), if_neg hcode.1, if_neg hcode.2, if_pos hfits]

/-- An option of the list is no pad, and it fits. -/
theorem rfcOptions_mem (h : q ∈ rfcOptions m len p) :
    (m q ≠ 0 ∧ m q ≠ 0xff) ∧ q + (m (q + 1)).toNat + 2 ≤ len := by
  fun_induction rfcOptions m len p with
  | case1 p hp hzero ih => exact ih h
  | case2 p hp hzero hmark => cases h
  | case3 p hp hzero hmark hfits ih =>
    rcases List.mem_cons.mp h with rfl | h
    · exact ⟨⟨hzero, hmark⟩, hfits⟩
    · exact ih h
  | case4 p hp hzero hmark hfits => cases h
  | case5 p hp => cases h

theorem lastValue_nil : lastValue m k ok [] old = old := rfl

/-- A later option takes the place of the earlier ones. -/
theorem lastValue_cons : lastValue m k ok (p :: options) old =
    lastValue m k ok options (if ok p then optionValue m k p else old) := by
  rw [lastValue, lastValue]
  by_cases hp : ok p = true
  · rw [List.filter_cons_of_pos hp, List.getLast?_cons, if_pos hp]
    cases (options.filter ok).getLast? <;> rfl
  · rw [List.filter_cons_of_neg hp, if_neg hp]

theorem rfcMessageType_nil : rfcMessageType m [] = -1 := rfl

theorem rfcMessageType_cons : rfcMessageType m (p :: options) =
    if m p = 53 ∧ 1 ≤ m (p + 1) then ((m (p + 2)).toNat : Int) else rfcMessageType m options := by
  rw [rfcMessageType, rfcMessageType]
  split_ifs with hp
  · rw [List.filter_cons_of_pos (by simpa using hp)]
    rfl
  · rw [List.filter_cons_of_neg (by simpa using hp)]

/-- The last option gives the value of the last well-formed one exactly when it fits. -/
theorem lastFits_iff : LastFits m options k old ↔
    lastValue m k (isFor m k) options old = lastValue m k (isWellFormed m k) options old := by
  have hfilter : options.filter (isWellFormed m k) =
      (options.filter (isFor m k)).filter fun p => k.wellFormed (m (p + 1)).toNat := by
    rw [List.filter_filter]
    refine List.filter_congr fun p _ => ?_
    rw [isWellFormed, Bool.and_comm]
  rw [LastFits]
  cases hlast : (options.filter (isFor m k)).getLast? with
  | none =>
    rw [List.getLast?_eq_none_iff] at hlast
    rw [hlast] at hfilter
    rw [lastValue, lastValue, hfilter, hlast]
    simp
  | some p =>
    have hvalue : lastValue m k (isFor m k) options old = optionValue m k p := by
      rw [lastValue, hlast]
    rw [hvalue]
    constructor
    · intro h
      rcases h p rfl with hwell | hsame
      · -- the last option is the last well-formed one
        obtain ⟨init, hinit⟩ := List.getLast?_eq_some_iff.mp hlast
        rw [hinit, List.filter_append, List.filter_singleton, hwell] at hfilter
        rw [lastValue, hfilter, cond_true, List.getLast?_concat]
      · exact hsame
    · intro h q hq
      cases hq
      exact .inr h

end List

/-! ## One option -/

section Option

variable {cfg : DhcpConfig} {m : Contents} {len i p size maxlen : Nat} {name : Bytes}
  {v : DhcpVars} {k : DhcpVar}

theorem copyLong_all : (copyLong m i).All (· < len) ↔ i + 4 ≤ len := by
  rw [copyLong, all_bind, all_touch, forall_mem_range_lt]
  simp

theorem copyText_all : (copyText maxlen m i size name).All (· < len) ↔
    truncateSz maxlen size = 0 ∨ i + truncateSz maxlen size ≤ len := by
  rw [copyText, all_bind, all_touch, forall_mem_range_lt]
  simp

theorem truncateSz_le : truncateSz maxlen size ≤ size := by
  rw [truncateSz]
  split_ifs <;> omega

theorem textOf_terminated {rest : Bytes} : textOf (name ++ 0 :: rest) = textOf name := by
  rw [textOf, textOf]
  induction name with
  | nil => rfl
  | cons c name ih => rw [List.cons_append, List.takeWhile_cons, List.takeWhile_cons, ih]

theorem textOf_copyText : textOf (copyText maxlen m i size name).value =
    textOf (readAt m i (truncateSz maxlen size)) := by
  rw [copyText, value_bind, value_pure, textOf_terminated]

theorem dnsOption_all : (dnsOption cfg m p v).All (· < len) ↔
    (if cfg.dns2 ∧ 4 < m (p + 1) then p + 10 else p + 6) ≤ len := by
  rw [dnsOption, all_bind, copyLong_all]
  split_ifs
  · rw [all_bind, copyLong_all]
    simp
    omega
  · simp

theorem fileOption_all (hfits : p + (m (p + 1)).toNat + 2 ≤ len) (hlen : bootpFile < len) :
    (fileOption m p v).All (· < len) := by
  rw [fileOption, all_bind, all_touch, List.forall_mem_singleton]
  refine ⟨hlen, ?_⟩
  split_ifs
  · rw [all_bind, copyText_all]
    have hle : truncateSz 128 (m (p + 1)).toNat ≤ (m (p + 1)).toNat := truncateSz_le
    exact ⟨by omega, all_pure _⟩
  · exact all_pure _

theorem fixedEnd_long (h : m p = 1 ∨ m p = 3 ∨ m p = 51 ∨ m p = 54 ∨
    (m p = 2 ∧ cfg.timeOffset = true) ∨ (m p = 42 ∧ cfg.ntpServer = true)) :
    fixedEnd cfg m p = p + 6 := by
  rw [fixedEnd, if_pos h]

theorem fixedEnd_dns (h : m p = 6) :
    fixedEnd cfg m p = if cfg.dns2 ∧ 4 < m (p + 1) then p + 10 else p + 6 := by
  have hnone : ¬ (m p = 1 ∨ m p = 3 ∨ m p = 51 ∨ m p = 54 ∨
      (m p = 2 ∧ cfg.timeOffset = true) ∨ (m p = 42 ∧ cfg.ntpServer = true)) := by
    simp [h]
  rw [fixedEnd, if_neg hnone, if_pos h]

/-- The options with fixed lengths read so many bytes. -/
theorem dhcpOption_fixed (h : (dhcpOption cfg m p v).All (· < len)) :
    p + 1 < len ∧ fixedEnd cfg m p ≤ len := by
  rw [dhcpOption, all_bind, all_touch] at h
  obtain ⟨hhead, h⟩ := h
  have hp : p + 1 < len := hhead _ List.mem_cons_self
  refine ⟨hp, ?_⟩
  have hlong {f : UInt32 → DhcpVars}
      (h : (copyLong m (p + 2) >>= fun x => pure (f x)).All (· < len))
      (hend : fixedEnd cfg m p = p + 6) : fixedEnd cfg m p ≤ len := by
    have hread := copyLong_all.mp ((all_bind _ _).mp h).1
    omega
  by_cases h1 : m p = 1
  · rw [if_pos h1] at h
    exact hlong h (fixedEnd_long (.inl h1))
  rw [if_neg h1] at h
  by_cases h2 : m p = 2 ∧ cfg.timeOffset = true
  · rw [if_pos h2] at h
    exact hlong h (fixedEnd_long (.inr (.inr (.inr (.inr (.inl h2))))))
  rw [if_neg h2] at h
  by_cases h3 : m p = 3
  · rw [if_pos h3] at h
    exact hlong h (fixedEnd_long (.inr (.inl h3)))
  rw [if_neg h3] at h
  by_cases h6 : m p = 6
  · rw [if_pos h6] at h
    rw [fixedEnd_dns h6]
    exact dnsOption_all.mp h
  rw [if_neg h6] at h
  by_cases h42 : m p = 42 ∧ cfg.ntpServer = true
  · rw [if_neg (by simp [h42]), if_neg (by simp [h42]), if_pos h42] at h
    exact hlong h (fixedEnd_long (.inr (.inr (.inr (.inr (.inr h42))))))
  by_cases h51 : m p = 51
  · rw [if_neg (by simp [h51]), if_neg (by simp [h51]), if_neg h42, if_pos h51] at h
    exact hlong h (fixedEnd_long (.inr (.inr (.inl h51))))
  by_cases h54 : m p = 54
  · rw [if_neg (by simp [h54]), if_neg (by simp [h54]), if_neg h42, if_neg h51, if_pos h54] at h
    exact hlong h (fixedEnd_long (.inr (.inr (.inr (.inl h54)))))
  have hnone : ¬ (m p = 1 ∨ m p = 3 ∨ m p = 51 ∨ m p = 54 ∨
      (m p = 2 ∧ cfg.timeOffset = true) ∨ (m p = 42 ∧ cfg.ntpServer = true)) := by
    rintro (h | h | h | h | h | h)
    exacts [h1 h, h3 h, h51 h, h54 h, h2 h, h42 h]
  rw [fixedEnd, if_neg hnone, if_neg h6]
  omega

/-- An option that fits is read inside of the packet. -/
theorem dhcpOption_all (hfits : p + (m (p + 1)).toNat + 2 ≤ len) (hfixed : fixedEnd cfg m p ≤ len)
    (hlen : bootpFile < len) : (dhcpOption cfg m p v).All (· < len) := by
  have hhead : ∀ i ∈ [p + 1, p], i < len := by
    simp
    omega
  have hlong {f : UInt32 → DhcpVars} (h : fixedEnd cfg m p = p + 6) :
      (copyLong m (p + 2) >>= fun x => pure (f x)).All (· < len) :=
    (all_bind _ _).mpr ⟨copyLong_all.mpr (by omega), all_pure _⟩
  have htext {maxlen : Nat} {name : Bytes} {f : Bytes → DhcpVars} :
      (copyText maxlen m (p + 2) (m (p + 1)).toNat name >>= fun x => pure (f x)).All (· < len) := by
    have hle : truncateSz maxlen (m (p + 1)).toNat ≤ (m (p + 1)).toNat := truncateSz_le
    exact (all_bind _ _).mpr ⟨copyText_all.mpr (by omega), all_pure _⟩
  rw [dhcpOption, all_bind, all_touch]
  refine ⟨hhead, ?_⟩
  by_cases h1 : m p = 1
  · rw [if_pos h1]
    exact hlong (fixedEnd_long (.inl h1))
  rw [if_neg h1]
  by_cases h2 : m p = 2 ∧ cfg.timeOffset = true
  · rw [if_pos h2]
    exact hlong (fixedEnd_long (.inr (.inr (.inr (.inr (.inl h2))))))
  rw [if_neg h2]
  by_cases h3 : m p = 3
  · rw [if_pos h3]
    exact hlong (fixedEnd_long (.inr (.inl h3)))
  rw [if_neg h3]
  by_cases h6 : m p = 6
  · rw [if_pos h6]
    rw [fixedEnd_dns h6] at hfixed
    exact dnsOption_all.mpr hfixed
  rw [if_neg h6]
  by_cases h12 : m p = 12
  · rw [if_pos h12]
    exact htext
  rw [if_neg h12]
  by_cases h17 : m p = 17
  · rw [if_pos h17]
    exact htext
  rw [if_neg h17]
  by_cases h42 : m p = 42 ∧ cfg.ntpServer = true
  · rw [if_pos h42]
    exact hlong (fixedEnd_long (.inr (.inr (.inr (.inr (.inr h42))))))
  rw [if_neg h42]
  by_cases h51 : m p = 51
  · rw [if_pos h51]
    exact hlong (fixedEnd_long (.inr (.inr (.inl h51))))
  rw [if_neg h51]
  by_cases h54 : m p = 54
  · rw [if_pos h54]
    exact hlong (fixedEnd_long (.inr (.inr (.inr (.inl h54)))))
  rw [if_neg h54]
  by_cases h67 : m p = 67
  · rw [if_pos h67]
    exact fileOption_all hfits hlen
  rw [if_neg h67]
  exact all_pure _

theorem copyLong_set {i : Nat} {f : UInt32 → DhcpVars} :
    (copyLong m i >>= fun x => pure (f x)).value = f (netReadIP m i) := rfl

theorem copyText_set {maxlen i oplen : Nat} {name : Bytes} {f : Bytes → DhcpVars} :
    (copyText maxlen m i oplen name >>= fun x => pure (f x)).value =
      f (copyText maxlen m i oplen name).value := rfl

theorem dnsOption_value : (dnsOption cfg m p v).value =
    if cfg.dns2 ∧ 4 < m (p + 1) then
      { v with netOurDNSIP := netReadIP m (p + 2), netOurDNS2IP := netReadIP m (p + 6) }
    else { v with netOurDNSIP := netReadIP m (p + 2) } := by
  rw [dnsOption, value_bind]
  split_ifs <;> rfl

/-- What an option does to the variables. -/
theorem dhcpOption_value : (dhcpOption cfg m p v).value.value k =
    if isFor m k p then optionValue m k p else v.value k := by
  have hhost : textOf
        (copyText sizeofHostName m (p + 2) (m (p + 1)).toNat v.netOurHostName).value =
      textOf (readAt m (p + 2) (truncateSz sizeofHostName (m (p + 1)).toNat)) := textOf_copyText
  have hroot : textOf
        (copyText sizeofRootPath m (p + 2) (m (p + 1)).toNat v.netOurRootPath).value =
      textOf (readAt m (p + 2) (truncateSz sizeofRootPath (m (p + 1)).toNat)) := textOf_copyText
  rw [dhcpOption, value_touch_ite]
  by_cases h1 : m p = 1
  · rw [if_pos h1, copyLong_set]
    cases k <;> simp [isFor, DhcpVar.code, h1, DhcpVars.value, optionValue, ipBytes_netReadIP]
  rw [if_neg h1]
  by_cases h2 : m p = 2 ∧ cfg.timeOffset = true
  · rw [if_pos h2, copyLong_set]
    cases k <;> simp [isFor, DhcpVar.code, h2.1, DhcpVars.value]
  rw [if_neg h2]
  by_cases h3 : m p = 3
  · rw [if_pos h3, copyLong_set]
    cases k <;> simp [isFor, DhcpVar.code, h3, DhcpVars.value, optionValue, ipBytes_netReadIP]
  rw [if_neg h3]
  by_cases h6 : m p = 6
  · rw [if_pos h6, dnsOption_value]
    by_cases hsecond : cfg.dns2 = true ∧ 4 < m (p + 1)
    · rw [if_pos hsecond]
      cases k <;> simp [isFor, DhcpVar.code, h6, DhcpVars.value, optionValue, ipBytes_netReadIP]
    · rw [if_neg hsecond]
      cases k <;> simp [isFor, DhcpVar.code, h6, DhcpVars.value, optionValue, ipBytes_netReadIP]
  rw [if_neg h6]
  by_cases h12 : m p = 12
  · rw [if_pos h12, copyText_set]
    cases k <;> simp [isFor, DhcpVar.code, h12, DhcpVars.value, optionValue, hhost]
  rw [if_neg h12]
  by_cases h17 : m p = 17
  · rw [if_pos h17, copyText_set]
    cases k <;> simp [isFor, DhcpVar.code, h17, DhcpVars.value, optionValue, hroot]
  rw [if_neg h17]
  by_cases h42 : m p = 42 ∧ cfg.ntpServer = true
  · rw [if_pos h42, copyLong_set]
    cases k <;> simp [isFor, DhcpVar.code, h42.1, DhcpVars.value]
  rw [if_neg h42]
  by_cases h51 : m p = 51
  · rw [if_pos h51, copyLong_set]
    cases k <;> simp [isFor, DhcpVar.code, h51, DhcpVars.value, optionValue, ipBytes_netReadIP]
  rw [if_neg h51]
  by_cases h54 : m p = 54
  · rw [if_pos h54, copyLong_set]
    cases k <;> simp [isFor, DhcpVar.code, h54, DhcpVars.value, optionValue, ipBytes_netReadIP]
  rw [if_neg h54]
  have hother : isFor m k p = false := by
    cases k <;> simp_all [isFor, DhcpVar.code]
  rw [hother, if_neg Bool.false_ne_true]
  by_cases h67 : m p = 67
  · rw [if_pos h67, fileOption, value_touch_ite]
    split_ifs <;> cases k <;> rfl
  · rw [if_neg h67]
    rfl

end Option

/-! ## The scans -/

section Scan

variable {cfg : DhcpConfig} {m : Contents} {len limit p : Nat} {v : DhcpVars} {seen : List Nat}
  {found : Bool} {P : Nat → Prop} {Q : List Nat × DhcpVars → Prop}

theorem dhcpPass_limit (h : limit ≤ p) :
    dhcpPass cfg m limit ⟨p, v, seen⟩ = ([], .inr (seen, v)) := if_neg (by simpa using h)

theorem dhcpPass_mark (h : p < limit) (hmark : m p = 0xff) :
    dhcpPass cfg m limit ⟨p, v, seen⟩ = ([p], .inr (seen, v)) := by
  rw [dhcpPass, if_pos h, if_pos hmark]

theorem dhcpPass_option (h : p < limit) (hmark : m p ≠ 0xff) :
    dhcpPass cfg m limit ⟨p, v, seen⟩ = (p :: (dhcpOption cfg m p v).log,
      .inl ⟨p + (m (p + 1)).toNat + 2, (dhcpOption cfg m p v).value, seen ++ [p]⟩) := by
  rw [dhcpPass, if_pos h, if_neg hmark]

theorem messagePass_mark (hmark : m p = 0xff) : messagePass m p = ([p], .inr (-1)) := if_pos hmark

theorem messagePass_found (hcode : m p = 53) :
    messagePass m p = ([p, p + 2], .inr (m (p + 2)).toNat) := by
  rw [messagePass, if_neg (by simp [hcode]), if_pos hcode]

theorem messagePass_next (hcode : m p ≠ 0xff ∧ m p ≠ 53) :
    messagePass m p = ([p, p + 1], .inl (p + (m (p + 1)).toNat + 2)) := by
  rw [messagePass, if_neg hcode.1, if_neg hcode.2]

/-- The options that have been seen stay in front. -/
theorem seen_extends {s : DhcpScan} (h : Ends (dhcpPass cfg m limit) P Q s) :
    ∃ r tail, Q r ∧ r.1 = s.seen ++ tail := by
  refine Ends.induct (motive := fun s => ∃ r tail, Q r ∧ r.1 = s.seen ++ tail) h ?_ ?_
  · rintro ⟨p, v, seen⟩ reads r hpass - hr
    refine ⟨r, [], hr, ?_⟩
    rw [dhcpPass] at hpass
    split_ifs at hpass <;> cases hpass <;> exact (List.append_nil _).symm
  · rintro ⟨p, v, seen⟩ reads t hpass - - ⟨r, tail, hr, htail⟩
    refine ⟨r, p :: tail, hr, ?_⟩
    rcases Nat.lt_or_ge p limit with hp | hp
    · by_cases hmark : m p = 0xff
      · rw [dhcpPass_mark hp hmark] at hpass
        cases hpass
      · rw [dhcpPass_option hp hmark] at hpass
        cases hpass
        rw [htail, List.append_assoc]
        rfl
    · rw [dhcpPass_limit hp] at hpass
      cases hpass

/-- A packet that fits is read inside of its bytes, and its options are the ones that are seen. -/
theorem DhcpFits.ends (h : DhcpFits cfg m len found p) (hlen : bootpFile < len) :
    Ends (dhcpPass cfg m (bootpVend + 4 + bootpHdrSize)) (· < len)
      (fun r => r.1 = seen ++ rfcOptions m len p ∧
        ∀ k, r.2.value k = lastValue m k (isFor m k) (rfcOptions m len p) (v.value k))
      ⟨p, v, seen⟩ := by
  induction h generalizing v seen with
  | mark below inside mark =>
    refine (ends_stop (dhcpPass_mark below mark)).mpr ⟨by simpa using inside, ?_⟩
    rw [rfcOptions_mark mark, List.append_nil]
    exact ⟨rfl, fun k => lastValue_nil.symm⟩
  | limit limit nothing _ =>
    refine (ends_stop (dhcpPass_limit limit)).mpr ⟨by simp, ?_⟩
    rw [nothing, List.append_nil]
    exact ⟨rfl, fun k => lastValue_nil.symm⟩
  | option below code fits fixed _ rest ih =>
    refine (ends_next (dhcpPass_option below code.2)).mpr ⟨?_, ?_⟩
    · intro i hi
      rcases List.mem_cons.mp hi with rfl | hi
      · omega
      · exact dhcpOption_all fits fixed hlen i hi
    · refine ih.imp (fun _ hi => hi) ?_
      rintro r ⟨hseen, hvalue⟩
      rw [rfcOptions_option code fits]
      refine ⟨by rw [hseen, List.append_assoc]; rfl, ?_⟩
      intro k
      rw [hvalue k, lastValue_cons, dhcpOption_value]

/-- If the options that are seen are the options of the packet, the packet fits. -/
theorem dhcpFits_of_ends
    (h : Ends (dhcpPass cfg m (bootpVend + 4 + bootpHdrSize)) (· < len)
      (fun r => r.1 = seen ++ rfcOptions m len p) ⟨p, v, seen⟩) :
    DhcpFits cfg m len true p := by
  induction hn : bootpVend + 4 + bootpHdrSize - p using Nat.strong_induction_on
    generalizing p v seen with
  | _ n ih =>
    rcases Nat.lt_or_ge p (bootpVend + 4 + bootpHdrSize) with hp | hp
    · by_cases hmark : m p = 0xff
      · obtain ⟨hreads, -⟩ := (ends_stop (dhcpPass_mark hp hmark)).mp h
        exact .mark hp (hreads p List.mem_cons_self) hmark
      · obtain ⟨hreads, hrest⟩ := (ends_next (dhcpPass_option hp hmark)).mp h
        -- what is seen is an option of the packet, so that it is no pad and fits
        obtain ⟨r, tail, hr, htail⟩ := seen_extends hrest
        rw [hr, List.append_assoc, List.append_right_inj] at htail
        obtain ⟨hcode, hfits⟩ : (m p ≠ 0 ∧ m p ≠ 0xff) ∧ p + (m (p + 1)).toNat + 2 ≤ len :=
          rfcOptions_mem (by rw [htail]; exact List.mem_cons_self)
        have hoption : (dhcpOption cfg m p v).All (· < len) :=
          fun i hi => hreads i (List.mem_cons_of_mem _ hi)
        refine .option hp hcode hfits (dhcpOption_fixed hoption).2 (by simp) ?_
        refine ih _ (by omega) (hrest.imp (fun _ hi => hi) ?_) rfl
        intro r hr
        rw [hr, rfcOptions_option hcode hfits, List.append_assoc]
        rfl
    · obtain ⟨-, hseen⟩ := (ends_stop (dhcpPass_limit hp)).mp h
      exact .limit hp (List.self_eq_append_right.mp hseen) (by simp)

/-- The scan for the message type finds none. -/
theorem markAhead_iff : Ends (messagePass m) (· < len) (· = -1) p ↔ MarkAhead m len p := by
  constructor
  · intro h
    refine Ends.induct (motive := fun p => MarkAhead m len p) h ?_ ?_
    · intro p reads r hpass hreads hr
      by_cases hmark : m p = 0xff
      · rw [messagePass_mark hmark] at hpass
        cases hpass
        exact .mark (hreads p List.mem_cons_self) hmark
      · by_cases hcode : m p = 53
        · rw [messagePass_found hcode] at hpass
          cases hpass
          omega
        · rw [messagePass_next ⟨hmark, hcode⟩] at hpass
          cases hpass
    · intro p reads t hpass hreads _ ih
      by_cases hmark : m p = 0xff
      · rw [messagePass_mark hmark] at hpass
        cases hpass
      · by_cases hcode : m p = 53
        · rw [messagePass_found hcode] at hpass
          cases hpass
        · rw [messagePass_next ⟨hmark, hcode⟩] at hpass
          cases hpass
          exact .next (hreads (p + 1) (by simp)) ⟨hmark, hcode⟩ ih
  · intro h
    induction h with
    | mark inside mark =>
      exact (ends_stop (messagePass_mark mark)).mpr ⟨by simpa using inside, rfl⟩
    | next inside code rest ih =>
      refine (ends_next (messagePass_next code)).mpr ⟨?_, ih⟩
      simp
      omega

/-- A packet that fits has its message type. -/
theorem DhcpFits.message (h : DhcpFits cfg m len found p) (hfound : found = false) :
    Ends (messagePass m) (· < len) (· = rfcMessageType m (rfcOptions m len p)) p := by
  induction h with
  | mark _ inside mark =>
    refine (ends_stop (messagePass_mark mark)).mpr ⟨by simpa using inside, ?_⟩
    rw [rfcOptions_mark mark, rfcMessageType_nil]
  | limit _ nothing ahead =>
    rw [nothing, rfcMessageType_nil]
    exact markAhead_iff.mpr (ahead hfound)
  | @option found p _ code fits _ message _ ih =>
    rw [rfcOptions_option code fits, rfcMessageType_cons]
    by_cases hcode : m p = 53
    · rw [ends_stop (messagePass_found hcode)]
      by_cases hsize : m (p + 1) = 0
      · obtain ⟨hinside, hvalue⟩ := message hfound hcode hsize
        have hnone : ¬ (m p = 53 ∧ 1 ≤ m (p + 1)) := by
          rw [hsize]
          simp
        rw [if_neg hnone, hvalue, hsize]
        refine ⟨?_, rfl⟩
        simp
        omega
      · have hnat : 1 ≤ (m (p + 1)).toNat := by
          have hne : (m (p + 1)).toNat ≠ 0 := fun h => hsize (UInt8.toNat_inj.mp h)
          omega
        rw [if_pos ⟨hcode, UInt8.le_iff_toNat_le.mpr hnat⟩]
        refine ⟨?_, rfl⟩
        simp
        omega
    · rw [if_neg (by simp [hcode])]
      refine (ends_next (messagePass_next ⟨code.2, hcode⟩)).mpr ⟨?_, ih (by simp [hfound, hcode])⟩
      simp
      omega

/-- What the scan for the message type adds to the condition. -/
theorem DhcpFits.withMessage {found' : Bool} (h : DhcpFits cfg m len found p)
    (hmessage : found' = false →
      Ends (messagePass m) (· < len) (· = rfcMessageType m (rfcOptions m len p)) p) :
    DhcpFits cfg m len found' p := by
  induction h generalizing found' with
  | mark below inside mark => exact .mark below inside mark
  | limit limit nothing _ =>
    refine .limit limit nothing ?_
    intro hfound
    have h := hmessage hfound
    rw [nothing, rfcMessageType_nil] at h
    exact markAhead_iff.mp h
  | @option found p below code fits fixed _ _ ih =>
    rw [rfcOptions_option code fits, rfcMessageType_cons] at hmessage
    refine .option below code fits fixed ?_ ?_
    · intro hfound hcode hsize
      have hnone : ¬ (m p = 53 ∧ 1 ≤ m (p + 1)) := by
        rw [hsize]
        simp
      have h := hmessage hfound
      rw [if_neg hnone, ends_stop (messagePass_found hcode), hsize] at h
      exact ⟨h.1 (p + 2) (by simp), h.2⟩
    · refine ih ?_
      intro hfound
      rw [Bool.or_eq_false_iff, decide_eq_false_iff_not] at hfound
      have h := hmessage hfound.1
      rw [if_neg (by simp [hfound.2]), ends_next (messagePass_next ⟨code.2, hfound.2⟩)] at h
      exact h.2

/-- The two scanners decode exactly the packets whose options follow each other without pads up to
an end mark, each with the bytes that are copied for it, and whose last options are well-formed. -/
theorem dhcp_right_iff (hmagic : readAt m bootpVend 4 = bootpVendorMagic)
    (hlen : bootpVend + 4 ≤ len) : DhcpRight cfg m len v ↔
      DhcpFits cfg m len false (bootpVend + 4) ∧
        ∀ k, LastFits m (rfcOptions m len (bootpVend + 4)) k (v.value k) := by
  have hfile : bootpFile < len := by
    rw [bootpVend] at hlen
    rw [bootpFile]
    omega
  have hmessage : (∃ fuel x, dhcpMessageType m fuel = some x ∧ (∀ i ∈ x.1, i < len) ∧
        x.2 = rfcMessageType m (rfcOptions m len (bootpVend + 4))) ↔
      Ends (messagePass m) (· < len)
        (· = rfcMessageType m (rfcOptions m len (bootpVend + 4))) (bootpVend + 4) := by
    have hcookie : ∀ i ∈ List.range' bootpVend 4, i < len := forall_mem_range_lt.mpr (.inr hlen)
    constructor
    · rintro ⟨fuel, x, hx, hreads, hresult⟩
      rw [dhcpMessageType, if_neg (not_not.mpr hmagic), Option.map_eq_some_iff] at hx
      obtain ⟨y, hy, rfl⟩ := hx
      exact ⟨fuel, y, hy, (List.forall_mem_append.mp hreads).2, hresult⟩
    · rintro ⟨fuel, y, hy, hreads, hresult⟩
      refine ⟨fuel, (List.range' bootpVend 4 ++ y.1, y.2), ?_,
        List.forall_mem_append.mpr ⟨hcookie, hreads⟩, hresult⟩
      rw [dhcpMessageType, if_neg (not_not.mpr hmagic), hy]
      rfl
  rw [DhcpRight, hmessage]
  constructor
  · rintro ⟨htype, hprocess⟩
    have hfits : DhcpFits cfg m len true (bootpVend + 4) := by
      obtain ⟨fuel, x, hx, hreads, hseen, -⟩ := hprocess
      have hends : Ends (dhcpPass cfg m (bootpVend + 4 + bootpHdrSize)) (· < len)
          (fun r => r.1 = [] ++ rfcOptions m len (bootpVend + 4)) ⟨bootpVend + 4, v, []⟩ :=
        ⟨fuel, x, hx, hreads, hseen⟩
      exact dhcpFits_of_ends hends
    refine ⟨hfits.withMessage fun _ => htype, ?_⟩
    intro k
    -- the run has one result, so that both descriptions of the variables hold
    obtain ⟨fuel, x, hx, hreads, hseen, hvalues⟩ := hprocess
    have hrun : Ends (dhcpPass cfg m (bootpVend + 4 + bootpHdrSize)) (· < len)
        (fun r => ∀ k, r.2.value k = lastValue m k (isWellFormed m k)
          (rfcOptions m len (bootpVend + 4)) (v.value k)) ⟨bootpVend + 4, v, []⟩ :=
      ⟨fuel, x, hx, hreads, hvalues⟩
    obtain ⟨-, y, -, -, hwell, -, hlast⟩ := hrun.and (hfits.ends hfile)
    exact lastFits_iff.mpr ((hlast k).symm.trans (hwell k))
  · rintro ⟨hfits, hlast⟩
    refine ⟨hfits.message rfl, ?_⟩
    obtain ⟨fuel, x, hx, hreads, hseen, hvalues⟩ : Ends
        (dhcpPass cfg m (bootpVend + 4 + bootpHdrSize)) (· < len)
        (fun r => r.1 = [] ++ rfcOptions m len (bootpVend + 4) ∧
          ∀ k, r.2.value k = lastValue m k (isFor m k) (rfcOptions m len (bootpVend + 4))
            (v.value k)) ⟨bootpVend + 4, v, []⟩ := hfits.ends hfile
    exact ⟨fuel, x, hx, hreads, hseen, fun k => (hvalues k).trans (lastFits_iff.mp (hlast k))⟩

end Scan

/-- Variables that are all zero, and no file. -/
def noDhcpVars : DhcpVars where
  netOurSubnetMask := 0
  netTimeOffset := 0
  netOurGatewayIP := 0
  netOurDNSIP := 0
  netOurDNS2IP := 0
  netOurHostName := List.replicate 32 0
  netOurRootPath := List.replicate 64 0
  netNtpServerIP := 0
  dhcpLeasetime := 0
  netDHCPServerIP := 0
  bpFile := List.replicate 128 0

/-- The message type 5 and an end mark. -/
theorem dhcp_right_ack : (readAt (vendorReply [53, 1, 5, 255]) bootpVend 4 = bootpVendorMagic ∧
      bootpVend + 4 ≤ 244) ∧
    DhcpRight ⟨true, true, true⟩ (vendorReply [53, 1, 5, 255]) 244 noDhcpVars := by
  have hmagic : readAt (vendorReply [53, 1, 5, 255]) bootpVend 4 = bootpVendorMagic := by
    decide
  have hmark : vendorReply [53, 1, 5, 255] (240 + (vendorReply [53, 1, 5, 255] 241).toNat + 2) =
      0xff := by
    decide
  have hlist : rfcOptions (vendorReply [53, 1, 5, 255]) 244 240 = [240] := by
    rw [rfcOptions_option (by decide) (by decide), rfcOptions_mark hmark]
  refine ⟨⟨hmagic, by decide⟩, (dhcp_right_iff hmagic (by decide)).mpr ⟨?_, ?_⟩⟩
  · exact .option (by decide) (by decide) (by decide) (by decide)
      (fun _ _ h => absurd h (by decide))
      (.mark (by decide) (by decide) hmark)
  · intro k p hp
    rw [bootpVend, hlist] at hp
    have hnone : isFor (vendorReply [53, 1, 5, 255]) k 240 = false := by
      cases k <;> decide
    rw [List.filter_singleton, hnone] at hp
    cases hp

/-- A pad in front of an option hides it. -/
theorem dhcp_pad_wrong : readAt (vendorReply [0, 1, 4, 255, 255, 255, 0, 255]) bootpVend 4 =
      bootpVendorMagic ∧
    ¬ DhcpRight ⟨false, false, false⟩ (vendorReply [0, 1, 4, 255, 255, 255, 0, 255]) 248
      noDhcpVars := by
  refine ⟨by decide, ?_⟩
  rintro ⟨-, fuel, x, hx, hreads, hseen, -⟩
  have hends : Ends (dhcpPass ⟨false, false, false⟩ (vendorReply [0, 1, 4, 255, 255, 255, 0, 255])
      (bootpVend + 4 + bootpHdrSize)) (· < 248) (fun r => r.1 = [] ++
        rfcOptions (vendorReply [0, 1, 4, 255, 255, 255, 0, 255]) 248 (bootpVend + 4))
      ⟨bootpVend + 4, noDhcpVars, []⟩ := ⟨fuel, x, hx, hreads, hseen⟩
  have hfits := dhcpFits_of_ends hends
  cases hfits with
  | mark _ _ mark => exact absurd mark (by decide)
  | limit limit => exact absurd limit (by decide)
  | option _ code => exact code.1 (by decide)

end UBoot.Net
