import UBoot.Lib.Logged
import UBoot.Lib.Loop
import UBoot.LibGeneric.Vsprintf
import UBoot.Net.Packet

/-!
# The vendor area of a BOOTP reply

`BootpCheckPkt`, `BootpVendorFieldProcess` and `BootpVendorProcess` of `net/bootp.c`, without
`CONFIG_CMD_DHCP`.  The packet is the memory from `pkt` on, with whatever is behind its `len` bytes,
and the bytes that are read of it are logged.  The messages are left out.

The scan ends in any case (`bootpVendor_ends`) and the names keep their terminators.  Its end is
taken `len` bytes behind the start of the area, which lies 240 bytes inside the packet, and the
lengths of the options are not compared with anything; `bootpVendor_right_iff` has the packets for
which all bytes are read from the packet.
-/

namespace UBoot.Net

open UBoot.Lib UBoot.LibGeneric

/-! ## The code -/

/-- `PORT_BOOTPS` -/
def portBootps : Nat := 67

/-- `PORT_BOOTPC` -/
def portBootpc : Nat := 68

/-- `sizeof (Bootp_t) - OPT_SIZE`, where `bp_vend` begins. -/
def bootpVend : Nat := 236

/-- `BOOTP_VENDOR_MAGIC` -/
def bootpVendorMagic : Bytes := [0x63, 0x82, 0x53, 0x63]

/-- `BootpCheckPkt`, for the four bytes of `BootpID`; `DHCP_OFFER` is 2, as `OP_BOOTREPLY` is. -/
def bootpCheckPkt (bootpID : Bytes) (m : Contents) (dest src len : Nat) : Int :=
  if dest ≠ portBootpc ∨ src ≠ portBootps then -1
  else if len < bootpVend then -2
  else if m 0 ≠ 1 ∧ m 0 ≠ 2 ∧ m 0 ≠ 5 ∧ m 0 ≠ 6 then -3
  else if m 1 ≠ 1 then -4
  else if m 2 ≠ 6 then -5
  else if readAt m 4 4 ≠ bootpID then -6
  else 0

/-- `truncate_sz` -/
def truncateSz (maxlen curlen : Nat) : Nat := if maxlen ≤ curlen then maxlen - 1 else curlen

/-- `sizeof (NetOurHostName)` -/
def sizeofHostName : Nat := 32

/-- `sizeof (NetOurRootPath)` -/
def sizeofRootPath : Nat := 64

/-- `sizeof (NetOurNISDomain)` -/
def sizeofNISDomain : Nat := 32

/-- The variables that are set from the vendor area. -/
structure BootpVars where
  netOurSubnetMask : IPaddr
  netOurGatewayIP : IPaddr
  netOurDNSIP : IPaddr
  netOurDNS2IP : IPaddr
  netBootFileSize : Nat
  netOurHostName : Bytes
  netOurRootPath : Bytes
  netOurNISDomain : Bytes

/-- `NetCopyIP` into a variable that is still zero. -/
def copyUnset (m : Contents) (i : Nat) (ip : IPaddr) : Logged Nat IPaddr :=
  if ip = 0 then do
    touch (List.range' i 4)
    return netReadIP m i
  else return ip

/-- The copy of a name into an array that is still empty. -/
def copyName (maxlen : Nat) (m : Contents) (i size : Nat) (name : Bytes) : Logged Nat Bytes :=
  if charAt name = 0 then do
    let size := truncateSz maxlen size
    touch (List.range' i size)
    return readAt m i size ++ 0 :: name.drop (size + 1)
  else return name

/-- `case 13`: the size, which is 0 if it has neither 2 nor 4 bytes. -/
def bootFileSize (m : Contents) (i size : Nat) : Logged Nat Nat :=
  if size = 2 then do
    touch (List.range' i 2)
    return word m i
  else if size = 4 then do
    touch (List.range' i 4)
    return word m (i + 2)
  else return 0

/-- `BootpVendorFieldProcess`, with `CONFIG_BOOTP_DNS2` as `dns2`. -/
def bootpVendorFieldProcess (dns2 : Bool) (m : Contents) (ext : Nat) (v : BootpVars) :
    Logged Nat BootpVars := do
  touch [ext + 1]
  let size := (m (ext + 1)).toNat
  let v := { v with netBootFileSize := 0 }
  touch [ext]
  if m ext = 1 then
    let ip ← copyUnset m (ext + 2) v.netOurSubnetMask
    return { v with netOurSubnetMask := ip }
  else if m ext = 3 then
    let ip ← copyUnset m (ext + 2) v.netOurGatewayIP
    return { v with netOurGatewayIP := ip }
  else if m ext = 6 then
    let ip ← copyUnset m (ext + 2) v.netOurDNSIP
    if dns2 ∧ 4 < size then
      let ip2 ← copyUnset m (ext + 2 + 4) v.netOurDNS2IP
      return { v with netOurDNSIP := ip, netOurDNS2IP := ip2 }
    else return { v with netOurDNSIP := ip }
  else if m ext = 12 then
    let name ← copyName sizeofHostName m (ext + 2) size v.netOurHostName
    return { v with netOurHostName := name }
  else if m ext = 13 then
    let n ← bootFileSize m (ext + 2) size
    return { v with netBootFileSize := n }
  else if m ext = 17 then
    let name ← copyName sizeofRootPath m (ext + 2) size v.netOurRootPath
    return { v with netOurRootPath := name }
  else if m ext = 40 then
    let name ← copyName sizeofNISDomain m (ext + 2) size v.netOurNISDomain
    return { v with netOurNISDomain := name }
  else return v

/-- `ext` as an index, with the variables. -/
structure VendorScan where
  ext : Nat
  vars : BootpVars

/-- One pass of the loop of `BootpVendorProcess`. -/
def vendorPass (dns2 : Bool) (m : Contents) (limit : Nat) (s : VendorScan) :
    List Nat × (VendorScan ⊕ BootpVars) :=
  if s.ext < limit then
    if m s.ext = 0xff then ([s.ext], .inr s.vars)
    else if m s.ext = 0 then ([s.ext], .inl ⟨s.ext + 1, s.vars⟩)
    else
      let ext := s.ext + (m (s.ext + 1)).toNat + 2
      if ext ≤ limit then
        let field := bootpVendorFieldProcess dns2 m s.ext s.vars
        (s.ext :: (s.ext + 1) :: field.log, .inl ⟨ext, field.value⟩)
      else ([s.ext, s.ext + 1], .inl ⟨ext, s.vars⟩)
  else ([], .inr s.vars)

/-- `BootpHandler` gets to `BootpVendorProcess`. -/
def bootpVendorFound (bootpID : Bytes) (m : Contents) (dest src len : Nat) : Prop :=
  bootpCheckPkt bootpID m dest src len = 0 ∧ readAt m bootpVend 4 = bootpVendorMagic

/-! ## What is read -/

/-- The variables that are only set while they are zero. -/
inductive VendorVar
  | subnetMask
  | gatewayIP
  | dnsIP
  | dns2IP
  | hostName
  | rootPath
  | nisDomain
  deriving DecidableEq

/-- Bytes of an option that go to a variable, or to `NetBootFileSize` in any case. -/
structure VendorCopy where
  var : Option VendorVar
  start : Nat
  count : Nat

/-- What is taken from the option at `p`. -/
def vendorCopies (dns2 : Bool) (m : Contents) (p : Nat) : List VendorCopy :=
  let size := (m (p + 1)).toNat
  if m p = 1 then [⟨some .subnetMask, p + 2, 4⟩]
  else if m p = 3 then [⟨some .gatewayIP, p + 2, 4⟩]
  else if m p = 6 then
    ⟨some .dnsIP, p + 2, 4⟩ :: if dns2 ∧ 4 < size then [⟨some .dns2IP, p + 6, 4⟩] else []
  else if m p = 12 then [⟨some .hostName, p + 2, min size 31⟩]
  else if m p = 13 then [⟨none, p + 2, if size = 2 ∨ size = 4 then size else 0⟩]
  else if m p = 17 then [⟨some .rootPath, p + 2, min size 63⟩]
  else if m p = 40 then [⟨some .nisDomain, p + 2, min size 31⟩]
  else []

/-- An address of zeros, or an empty name. -/
def leavesUnset (m : Contents) (x : VendorCopy) : VendorVar → Prop
  | .hostName | .rootPath | .nisDomain => x.count = 0 ∨ m x.start = 0
  | _ => ∀ k < x.count, m (x.start + k) = 0

/-- The variables that are zero behind an option. -/
def unsetBehind (m : Contents) (copies : List VendorCopy) (unset : VendorVar → Prop)
    (y : VendorVar) : Prop := unset y ∧ ∀ x ∈ copies, x.var = some y → leavesUnset m x y

/-- The bytes for the variables that are zero are bytes of the packet. -/
def OptionFits (len : Nat) (copies : List VendorCopy) (unset : VendorVar → Prop) : Prop :=
  ∀ x ∈ copies, (∀ y, x.var = some y → unset y) → x.count = 0 ∨ x.start + x.count ≤ len

/-- The scan goes from `p` over pads and options of the packet to an end mark in the packet, or
over the end of the scan with the last option. -/
inductive VendorFits (dns2 : Bool) (m : Contents) (len : Nat) : (VendorVar → Prop) → Nat → Prop
  | beyond {unset : VendorVar → Prop} {p : Nat} (limit : bootpVend + 4 + len ≤ p) :
      VendorFits dns2 m len unset p
  | stop {unset : VendorVar → Prop} {p : Nat} (inside : p < len) (mark : m p = 0xff) :
      VendorFits dns2 m len unset p
  | pad {unset : VendorVar → Prop} {p : Nat} (inside : p < len) (zero : m p = 0)
      (rest : VendorFits dns2 m len unset (p + 1)) : VendorFits dns2 m len unset p
  | last {unset : VendorVar → Prop} {p : Nat} (inside : p + 1 < len) (code : m p ≠ 0 ∧ m p ≠ 0xff)
      (beyond : bootpVend + 4 + len < p + (m (p + 1)).toNat + 2) : VendorFits dns2 m len unset p
  | option {unset : VendorVar → Prop} {p : Nat} (inside : p + 1 < len)
      (code : m p ≠ 0 ∧ m p ≠ 0xff) (within : p + (m (p + 1)).toNat + 2 ≤ bootpVend + 4 + len)
      (fits : OptionFits len (vendorCopies dns2 m p) unset)
      (rest : VendorFits dns2 m len (unsetBehind m (vendorCopies dns2 m p) unset)
        (p + (m (p + 1)).toNat + 2)) : VendorFits dns2 m len unset p

/-- The variables that are zero. -/
def BootpVars.unset (v : BootpVars) : VendorVar → Prop
  | .subnetMask => v.netOurSubnetMask = 0
  | .gatewayIP => v.netOurGatewayIP = 0
  | .dnsIP => v.netOurDNSIP = 0
  | .dns2IP => v.netOurDNS2IP = 0
  | .hostName => charAt v.netOurHostName = 0
  | .rootPath => charAt v.netOurRootPath = 0
  | .nisDomain => charAt v.netOurNISDomain = 0

/-- A string with its terminator in an array. -/
def HasTerminator (size : Nat) (name : Bytes) : Prop := name.length = size ∧ 0 ∈ name

/-- The names have their terminators. -/
structure BootpVars.Terminated (v : BootpVars) : Prop where
  hostName : HasTerminator sizeofHostName v.netOurHostName
  rootPath : HasTerminator sizeofRootPath v.netOurRootPath
  nisDomain : HasTerminator sizeofNISDomain v.netOurNISDomain

/-- If `BootpHandler` gets to the vendor area, the scan ends, has read bytes of the packet alone,
and leaves the names with terminators in their arrays. -/
def VendorRight (dns2 : Bool) (bootpID : Bytes) (m : Contents) (dest src len : Nat)
    (v : BootpVars) : Prop :=
  bootpVendorFound bootpID m dest src len →
    Ends (vendorPass dns2 m (bootpVend + 4 + len)) (· < len) BootpVars.Terminated
      ⟨bootpVend + 4, v⟩

/-! ## One option -/

section Option

variable {dns2 : Bool} {m : Contents} {len i p size maxlen : Nat} {ip : IPaddr} {name : Bytes}
  {v : BootpVars}

theorem forall_mem_range_lt {n : Nat} :
    (∀ j ∈ List.range' i n, j < len) ↔ n = 0 ∨ i + n ≤ len := by
  rw [← stretch_lt_iff, ← forall_mem_stretch (P := (· < len)) (f := fun j => j), List.map_id']

theorem truncateSz_eq (h : 0 < maxlen) : truncateSz maxlen size = min size (maxlen - 1) := by
  rw [truncateSz]
  split_ifs <;> omega

theorem netReadIP_eq_zero : netReadIP m i = 0 ↔ ∀ k < 4, m (i + k) = 0 := by
  have hlt := word_lt m i
  have hlt' := word_lt m (i + 2)
  have hzero : netReadIP m i = 0 ↔ word m i * 65536 + word m (i + 2) = 0 := by
    rw [netReadIP, ← UInt32.toNat_inj, UInt32.toNat_ofNat', Nat.mod_eq_of_lt (by omega)]
    rfl
  have hbyte : ∀ j, m j = 0 ↔ (m j).toNat = 0 := fun j => UInt8.toNat_inj.symm
  rw [hzero, word, word]
  constructor
  · intro h k hk
    rw [hbyte]
    have hk' : k = 0 ∨ k = 1 ∨ k = 2 ∨ k = 3 := by omega
    rcases hk' with rfl | rfl | rfl | rfl
    · rw [Nat.add_zero]
      omega
    · omega
    · omega
    · have h3 : i + 2 + 1 = i + 3 := rfl
      rw [h3] at h
      omega
  · intro h
    have h0 := (hbyte _).mp (h 0 (by decide))
    have h1 := (hbyte _).mp (h 1 (by decide))
    have h2 := (hbyte _).mp (h 2 (by decide))
    have h3 := (hbyte _).mp (h 3 (by decide))
    have hlast : i + 2 + 1 = i + 3 := rfl
    rw [Nat.add_zero] at h0
    rw [hlast]
    omega

theorem copyUnset_all : (copyUnset m i ip).All (· < len) ↔ (ip = 0 → 4 = 0 ∨ i + 4 ≤ len) := by
  rw [copyUnset]
  split_ifs with hip
  · rw [all_bind, all_touch, forall_mem_range_lt]
    simp [hip]
  · simp [hip]

theorem copyUnset_value : (copyUnset m i ip).value = 0 ↔ ip = 0 ∧ ∀ k < 4, m (i + k) = 0 := by
  rw [copyUnset]
  split_ifs with hip
  · rw [value_bind, value_pure, netReadIP_eq_zero]
    simp [hip]
  · simp [hip]

theorem copyName_all : (copyName maxlen m i size name).All (· < len) ↔
    (charAt name = 0 → truncateSz maxlen size = 0 ∨ i + truncateSz maxlen size ≤ len) := by
  rw [copyName]
  split_ifs with hname
  · rw [all_bind, all_touch, forall_mem_range_lt]
    simp [hname]
  · simp [hname]

theorem copyName_value : charAt (copyName maxlen m i size name).value = 0 ↔
    charAt name = 0 ∧ (truncateSz maxlen size = 0 ∨ m i = 0) := by
  rw [copyName]
  split_ifs with hname
  · rw [value_bind, value_pure]
    refine Iff.trans ?_ (and_iff_right hname).symm
    cases hsize : truncateSz maxlen size with
    | zero => exact iff_of_true rfl (.inl rfl)
    | succ n => simp [readAt, charAt, List.range'_succ]
  · simp [hname]

/-- A name that is copied ends inside of its array. -/
theorem copyName_terminated (hmax : 0 < maxlen) (h : HasTerminator maxlen name) :
    HasTerminator maxlen (copyName maxlen m i size name).value := by
  rw [copyName]
  split_ifs with hname
  · have hlt : truncateSz maxlen size < maxlen := by
      rw [truncateSz_eq hmax]
      omega
    rw [value_bind, value_pure]
    refine ⟨?_, ?_⟩
    · have hlength := h.1
      simp only [List.length_append, length_readAt, List.length_cons, List.length_drop]
      omega
    · exact List.mem_append_right _ List.mem_cons_self
  · exact h

theorem bootFileSize_all : (bootFileSize m i size).All (· < len) ↔
    (if size = 2 ∨ size = 4 then size else 0) = 0 ∨
      i + (if size = 2 ∨ size = 4 then size else 0) ≤ len := by
  rw [bootFileSize]
  split_ifs with h2 h h4 h h
  · rw [all_bind, all_touch, forall_mem_range_lt, h2]
    simp
  · exact absurd (.inl h2) h
  · rw [all_bind, all_touch, forall_mem_range_lt, h4]
    simp
  · exact absurd (.inr h4) h
  · exact absurd h (by tauto)
  · simp

theorem optionFits_cons {copies : List VendorCopy} {unset : VendorVar → Prop} {y : VendorVar}
    {n : Nat} : OptionFits len (⟨some y, i, n⟩ :: copies) unset ↔
      (unset y → n = 0 ∨ i + n ≤ len) ∧ OptionFits len copies unset := by
  simp [OptionFits]

theorem optionFits_nil {unset : VendorVar → Prop} : OptionFits len [] unset := by
  intro x hx
  cases hx

/-- An option for one variable. -/
theorem single_all {α : Type} {x : Logged Nat α} {f : α → BootpVars} {unset : VendorVar → Prop}
    {y : VendorVar} {n : Nat} (h : x.All (· < len) ↔ (unset y → n = 0 ∨ i + n ≤ len)) :
    (x >>= fun a => pure (f a)).All (· < len) ↔ OptionFits len [⟨some y, i, n⟩] unset := by
  rw [all_bind, h, optionFits_cons, and_iff_left (all_pure _), and_iff_left optionFits_nil]

/-- What is read of an option. -/
theorem vendorField_all : (bootpVendorFieldProcess dns2 m p v).All (· < len) ↔
    p + 1 < len ∧ OptionFits len (vendorCopies dns2 m p) v.unset := by
  have hname : ∀ {maxlen : Nat}, 0 < maxlen → ∀ {name : Bytes} {size : Nat},
      (copyName maxlen m (p + 2) size name).All (· < len) ↔
        (charAt name = 0 → min size (maxlen - 1) = 0 ∨ p + 2 + min size (maxlen - 1) ≤ len) := by
    intro maxlen hmax name size
    rw [copyName_all, truncateSz_eq hmax]
  rw [bootpVendorFieldProcess, vendorCopies, all_bind, all_touch, List.forall_mem_singleton]
  refine and_congr_right fun hp => ?_
  rw [all_bind, all_touch, List.forall_mem_singleton]
  refine (and_iff_right (by omega)).trans ?_
  by_cases h1 : m p = 1
  · rw [if_pos h1, if_pos h1]
    exact single_all copyUnset_all
  rw [if_neg h1, if_neg h1]
  by_cases h3 : m p = 3
  · rw [if_pos h3, if_pos h3]
    exact single_all copyUnset_all
  rw [if_neg h3, if_neg h3]
  by_cases h6 : m p = 6
  · rw [if_pos h6, if_pos h6, all_bind, copyUnset_all, optionFits_cons]
    refine and_congr_right fun _ => ?_
    split_ifs
    · exact single_all copyUnset_all
    · exact iff_of_true (all_pure _) optionFits_nil
  rw [if_neg h6, if_neg h6]
  by_cases h12 : m p = 12
  · rw [if_pos h12, if_pos h12]
    exact single_all (hname (by decide))
  rw [if_neg h12, if_neg h12]
  by_cases h13 : m p = 13
  · rw [if_pos h13, if_pos h13, all_bind, bootFileSize_all]
    simp [OptionFits]
  rw [if_neg h13, if_neg h13]
  by_cases h17 : m p = 17
  · rw [if_pos h17, if_pos h17]
    exact single_all (hname (by decide))
  rw [if_neg h17, if_neg h17]
  by_cases h40 : m p = 40
  · rw [if_pos h40, if_pos h40]
    exact single_all (hname (by decide))
  rw [if_neg h40, if_neg h40]
  exact iff_of_true (all_pure _) optionFits_nil

/-- The variables that are still zero behind an option. -/
theorem vendorField_unset : (bootpVendorFieldProcess dns2 m p v).value.unset =
    unsetBehind m (vendorCopies dns2 m p) v.unset := by
  have hname : ∀ {maxlen : Nat}, 1 < maxlen → ∀ name : Bytes,
      charAt (copyName maxlen m (p + 2) (m (p + 1)).toNat name).value = 0 ↔
        charAt name = 0 ∧ (m (p + 1) = 0 ∨ m (p + 2) = 0) := by
    intro maxlen hmax name
    have hzero : truncateSz maxlen (m (p + 1)).toNat = 0 ↔ m (p + 1) = 0 := by
      rw [truncateSz_eq (by omega), ← UInt8.toNat_inj, UInt8.toNat_zero]
      omega
    rw [copyName_value, hzero]
  have hhost := hname (by decide : 1 < sizeofHostName)
  have hroot := hname (by decide : 1 < sizeofRootPath)
  have hnis := hname (by decide : 1 < sizeofNISDomain)
  have hsize : (m (p + 1)).toNat = 0 ↔ m (p + 1) = 0 := by
    rw [← UInt8.toNat_inj, UInt8.toNat_zero]
  funext y
  rw [bootpVendorFieldProcess, vendorCopies, value_bind, value_bind]
  apply propext
  by_cases h1 : m p = 1
  · rw [if_pos h1, if_pos h1]
    cases y <;> simp [unsetBehind, leavesUnset, BootpVars.unset, copyUnset_value]
  rw [if_neg h1, if_neg h1]
  by_cases h3 : m p = 3
  · rw [if_pos h3, if_pos h3]
    cases y <;> simp [unsetBehind, leavesUnset, BootpVars.unset, copyUnset_value]
  rw [if_neg h3, if_neg h3]
  by_cases h6 : m p = 6
  · rw [if_pos h6, if_pos h6]
    split_ifs <;> cases y <;>
      simp [unsetBehind, leavesUnset, BootpVars.unset, copyUnset_value, Nat.add_assoc]
  rw [if_neg h6, if_neg h6]
  by_cases h12 : m p = 12
  · rw [if_pos h12, if_pos h12]
    cases y <;> simp [unsetBehind, leavesUnset, BootpVars.unset, hhost, hsize]
  rw [if_neg h12, if_neg h12]
  by_cases h13 : m p = 13
  · rw [if_pos h13, if_pos h13]
    cases y <;> simp [unsetBehind, BootpVars.unset]
  rw [if_neg h13, if_neg h13]
  by_cases h17 : m p = 17
  · rw [if_pos h17, if_pos h17]
    cases y <;> simp [unsetBehind, leavesUnset, BootpVars.unset, hroot, hsize]
  rw [if_neg h17, if_neg h17]
  by_cases h40 : m p = 40
  · rw [if_pos h40, if_pos h40]
    cases y <;> simp [unsetBehind, leavesUnset, BootpVars.unset, hnis, hsize]
  rw [if_neg h40, if_neg h40]
  cases y <;> simp [unsetBehind, BootpVars.unset]

/-- The names keep their terminators. -/
theorem vendorField_terminated (h : v.Terminated) :
    (bootpVendorFieldProcess dns2 m p v).value.Terminated := by
  rw [bootpVendorFieldProcess, value_bind, value_bind]
  split_ifs
  · exact ⟨h.hostName, h.rootPath, h.nisDomain⟩
  · exact ⟨h.hostName, h.rootPath, h.nisDomain⟩
  · exact ⟨h.hostName, h.rootPath, h.nisDomain⟩
  · exact ⟨h.hostName, h.rootPath, h.nisDomain⟩
  · exact ⟨copyName_terminated (by decide) h.hostName, h.rootPath, h.nisDomain⟩
  · exact ⟨h.hostName, h.rootPath, h.nisDomain⟩
  · exact ⟨h.hostName, copyName_terminated (by decide) h.rootPath, h.nisDomain⟩
  · exact ⟨h.hostName, h.rootPath, copyName_terminated (by decide) h.nisDomain⟩
  · exact ⟨h.hostName, h.rootPath, h.nisDomain⟩

end Option

/-! ## The scan -/

section Scan

variable {dns2 : Bool} {bootpID : Bytes} {m : Contents} {dest src len p : Nat} {v : BootpVars}
  {P : Nat → Prop} {Q : BootpVars → Prop}

theorem vendorPass_beyond {limit : Nat} (h : limit ≤ p) :
    vendorPass dns2 m limit ⟨p, v⟩ = ([], .inr v) := if_neg (by simpa using h)

theorem vendorPass_stop {limit : Nat} (h : p < limit) (hmark : m p = 0xff) :
    vendorPass dns2 m limit ⟨p, v⟩ = ([p], .inr v) := by
  rw [vendorPass, if_pos h, if_pos hmark]

theorem vendorPass_pad {limit : Nat} (h : p < limit) (hzero : m p = 0) :
    vendorPass dns2 m limit ⟨p, v⟩ = ([p], .inl ⟨p + 1, v⟩) := by
  have hmark : ¬ m p = 0xff := by
    rw [hzero]
    decide
  rw [vendorPass, if_pos h, if_neg hmark, if_pos hzero]

theorem vendorPass_option {limit : Nat} (h : p < limit) (hcode : m p ≠ 0 ∧ m p ≠ 0xff)
    (hwithin : p + (m (p + 1)).toNat + 2 ≤ limit) : vendorPass dns2 m limit ⟨p, v⟩ =
      (p :: (p + 1) :: (bootpVendorFieldProcess dns2 m p v).log,
        .inl ⟨p + (m (p + 1)).toNat + 2, (bootpVendorFieldProcess dns2 m p v).value⟩) := by
  rw [vendorPass, if_pos h, if_neg hcode.2, if_neg hcode.1]
  exact if_pos hwithin

theorem vendorPass_last {limit : Nat} (h : p < limit) (hcode : m p ≠ 0 ∧ m p ≠ 0xff)
    (hover : limit < p + (m (p + 1)).toNat + 2) : vendorPass dns2 m limit ⟨p, v⟩ =
      ([p, p + 1], .inl ⟨p + (m (p + 1)).toNat + 2, v⟩) := by
  rw [vendorPass, if_pos h, if_neg hcode.2, if_neg hcode.1]
  exact if_neg (Nat.not_le.mpr hover)

/-- Every pass goes on to a higher index, so that the scan ends. -/
theorem bootpVendor_ends (limit : Nat) (h : v.Terminated) :
    Ends (vendorPass dns2 m limit) (fun _ => True) BootpVars.Terminated ⟨p, v⟩ := by
  induction hn : limit - p using Nat.strong_induction_on generalizing p v with
  | _ n ih =>
    rcases Nat.lt_or_ge p limit with hp | hp
    · by_cases hmark : m p = 0xff
      · exact (ends_stop (vendorPass_stop hp hmark)).mpr ⟨fun _ _ => trivial, h⟩
      · by_cases hzero : m p = 0
        · exact (ends_next (vendorPass_pad hp hzero)).mpr
            ⟨fun _ _ => trivial, ih _ (by omega) h rfl⟩
        · rcases Nat.lt_or_ge limit (p + (m (p + 1)).toNat + 2) with hover | hwithin
          · exact (ends_next (vendorPass_last hp ⟨hzero, hmark⟩ hover)).mpr
              ⟨fun _ _ => trivial, ih _ (by omega) h rfl⟩
          · exact (ends_next (vendorPass_option hp ⟨hzero, hmark⟩ hwithin)).mpr
              ⟨fun _ _ => trivial, ih _ (by omega) (vendorField_terminated h) rfl⟩
    · exact (ends_stop (vendorPass_beyond hp)).mpr ⟨fun _ _ => trivial, h⟩

/-- A scan that fits reads bytes of the packet alone. -/
theorem VendorFits.ends {unset : VendorVar → Prop} (hfits : VendorFits dns2 m len unset p)
    (hunset : v.unset = unset) (h : v.Terminated) :
    Ends (vendorPass dns2 m (bootpVend + 4 + len)) (· < len) BootpVars.Terminated ⟨p, v⟩ := by
  induction hfits generalizing v with
  | beyond limit => exact (ends_stop (vendorPass_beyond limit)).mpr ⟨by simp, h⟩
  | stop inside mark =>
    exact (ends_stop (vendorPass_stop (by omega) mark)).mpr ⟨by simpa using inside, h⟩
  | pad inside zero rest ih =>
    exact (ends_next (vendorPass_pad (by omega) zero)).mpr ⟨by simpa using inside, ih hunset h⟩
  | last inside code beyond =>
    refine (ends_next (vendorPass_last (by omega) code beyond)).mpr ⟨?_, ?_⟩
    · simp
      omega
    · exact (ends_stop (vendorPass_beyond beyond.le)).mpr ⟨by simp, h⟩
  | option inside code within fits rest ih =>
    refine (ends_next (vendorPass_option (by omega) code within)).mpr ⟨?_, ?_⟩
    · have hfield : (bootpVendorFieldProcess dns2 m _ v).All (· < len) :=
        vendorField_all.mpr ⟨inside, hunset ▸ fits⟩
      intro i hi
      simp only [List.mem_cons] at hi
      rcases hi with rfl | rfl | hi
      · omega
      · exact inside
      · exact hfield i hi
    · exact ih (hunset ▸ vendorField_unset) (vendorField_terminated h)

/-- A scan that reads bytes of the packet alone fits. -/
theorem vendorFits_of_ends
    (h : Ends (vendorPass dns2 m (bootpVend + 4 + len)) (· < len) Q ⟨p, v⟩) :
    VendorFits dns2 m len v.unset p := by
  induction hn : bootpVend + 4 + len - p using Nat.strong_induction_on generalizing p v with
  | _ n ih =>
    rcases Nat.lt_or_ge p (bootpVend + 4 + len) with hp | hp
    · by_cases hmark : m p = 0xff
      · obtain ⟨hreads, -⟩ := (ends_stop (vendorPass_stop hp hmark)).mp h
        exact .stop (hreads p List.mem_cons_self) hmark
      · by_cases hzero : m p = 0
        · obtain ⟨hreads, hrest⟩ := (ends_next (vendorPass_pad hp hzero)).mp h
          exact .pad (hreads p List.mem_cons_self) hzero (ih _ (by omega) hrest rfl)
        · rcases Nat.lt_or_ge (bootpVend + 4 + len) (p + (m (p + 1)).toNat + 2) with
            hover | hwithin
          · obtain ⟨hreads, -⟩ := (ends_next (vendorPass_last hp ⟨hzero, hmark⟩ hover)).mp h
            exact .last (hreads (p + 1) (by simp)) ⟨hzero, hmark⟩ hover
          · obtain ⟨hreads, hrest⟩ :=
              (ends_next (vendorPass_option hp ⟨hzero, hmark⟩ hwithin)).mp h
            have hfield : (bootpVendorFieldProcess dns2 m p v).All (· < len) := by
              intro i hi
              exact hreads i (List.mem_cons_of_mem _ (List.mem_cons_of_mem _ hi))
            obtain ⟨hinside, hfits⟩ := vendorField_all.mp hfield
            exact .option hinside ⟨hzero, hmark⟩ hwithin hfits
              (vendorField_unset ▸ ih _ (by omega) hrest rfl)
    · exact .beyond hp

end Scan

/-- Variables that are all zero. -/
def noVars : BootpVars where
  netOurSubnetMask := 0
  netOurGatewayIP := 0
  netOurDNSIP := 0
  netOurDNS2IP := 0
  netBootFileSize := 0
  netOurHostName := List.replicate 32 0
  netOurRootPath := List.replicate 64 0
  netOurNISDomain := List.replicate 32 0

theorem noVars_terminated : noVars.Terminated := by
  refine ⟨⟨rfl, ?_⟩, ⟨rfl, ?_⟩, ⟨rfl, ?_⟩⟩ <;> decide

/-- A reply with the magic number and `area` behind it. -/
def vendorReply (area : Bytes) : Contents := fun i =>
  ([2, 1, 6, 0, 1, 2, 3, 4] ++ List.replicate 228 0 ++ bootpVendorMagic ++ area).getD i 0

end UBoot.Net
