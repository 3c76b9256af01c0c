import UBoot.Common.NveditSpec
import UBoot.Lib.Scatter

/-!
# Copying a variable out

`getenv_r` of `common/cmd_nvedit.c` copies the value of a variable to a buffer of `len` bytes.  The
count `n` is advanced before the byte is copied, so that at the end `len == n` does not mean that
the buffer is full without a terminator: it is the value with its terminator that fills the buffer,
and the store behind the loop goes behind the buffer.  A value of `len` bytes or more leaves the
loop with `n = len + 1`, and there is no terminator (`getenvR_copies`).
-/

namespace UBoot.Common

open UBoot.Lib UBoot.LibGeneric

/-! ## The code -/

/-- `while ((len > n++) && (*buf++ = env_get_char(val++)) != '\0');`, with `n` and `buf` behind it.
The area has less than 2³¹ bytes, so that `n` does not wrap. -/
def copyOut (data : Bytes) (len : Nat) : Nat → Nat → Nat → Nat → Contents →
    Exec (Nat × Nat × Contents)
  | 0, _, _, _, _ => .error .steps
  | fuel + 1, val, buf, n, mem => do
    if n < len then
      let c ← load data val
      let mem := Function.update mem buf c
      if c ≠ 0 then copyOut data len fuel (val + 1) (buf + 1) (n + 1) mem
      else return (n + 1, buf + 1, mem)
    else return (n + 1, buf, mem)

/-- `getenv_r(name, buf, len)`: the return code, and the memory from `buf` on. -/
def getenvR (configEnvSize : Nat) (data nameMem : Bytes) (len : Nat) (mem : Contents) :
    Exec (Int × Contents) := do
  match ← search data (fun nxt => decide (configEnvSize ≤ nxt)) nameMem with
  | .found _ _ val =>
    let (n, buf, mem) ← copyOut data len (data.length + 1) val 0 0 mem
    return (n, if len = n then Function.update mem buf 0 else mem)
  | _ => return (-1, mem)

/-! ## What the loop copies -/

/-- A value with its terminator, or as much of it as fits. -/
theorem copyOut_cut {Q : Bytes} {len : Nat} {v P : Bytes} {fuel n : Nat} (mem : Contents)
    (hv : 0 ∉ v) (hfuel : v.length < fuel) (hn : n ≤ len) :
    copyOut (P ++ (v ++ 0 :: Q)) len fuel P.length n n mem =
      .ok (if n + v.length < len then
        (n + v.length + 1, n + v.length + 1, storeAt mem n (v ++ [0]))
      else (len + 1, len, storeAt mem n (v.take (len - n)))) := by
  induction v generalizing P fuel n mem with
  | nil =>
    obtain ⟨fuel, rfl⟩ : ∃ k, fuel = k + 1 := ⟨fuel - 1, by simp at hfuel; omega⟩
    rw [copyOut, List.nil_append, load_cut rfl]
    by_cases hlt : n < len
    · rw [if_pos hlt, if_pos (show n + ([] : Bytes).length < len from hlt), ok_bind,
        List.nil_append, storeAt_cons, storeAt_nil]
      rfl
    · have hlen : n = len := Nat.le_antisymm hn (Nat.not_lt.mp hlt)
      rw [if_neg hlt, if_neg (show ¬ n + ([] : Bytes).length < len from hlt), List.take_nil,
        storeAt_nil, hlen]
      rfl
  | cons c v ih =>
    obtain ⟨fuel, rfl⟩ : ∃ k, fuel = k + 1 := ⟨fuel - 1, by omega⟩
    have hc : c ≠ 0 := fun h => hv (by simp [h])
    rw [copyOut, List.cons_append, load_cut rfl, List.length_cons]
    by_cases hlt : n < len
    · have hfuel' : v.length < fuel := Nat.lt_of_succ_lt_succ hfuel
      have hrest := ih (P := P ++ [c]) (n := n + 1) (Function.update mem n c)
        (fun h => hv (List.mem_cons_of_mem _ h)) hfuel' hlt
      rw [List.append_assoc, List.singleton_append, List.length_append, List.length_singleton]
        at hrest
      have hsub : len - n = len - (n + 1) + 1 := by omega
      have hadd : n + (v.length + 1) = n + 1 + v.length := by omega
      rw [if_pos hlt, ok_bind]
      dsimp only
      rw [if_pos hc, hrest, List.cons_append, storeAt_cons, hsub, List.take_succ_cons, storeAt_cons,
        hadd]
    · have hlen : n = len := Nat.le_antisymm hn (Nat.not_lt.mp hlt)
      rw [if_neg hlt, if_neg (by omega), hlen, Nat.sub_self, List.take_zero, storeAt_nil]
      rfl

/-! ## The buffer -/

/-- What `getenv_r` is for: a string in the buffer, and nothing behind it; or nothing at all. -/
def CopiedOut (value : Option Bytes) (len : Nat) (mem : Contents) (r : Int × Contents) : Prop :=
  match value with
  | some v => (∀ i, len ≤ i → r.2 i = mem i) ∧
      readAt r.2 0 ((v.take (len - 1)).length + 1) = v.take (len - 1) ++ [0]
  | none => r = (-1, mem)

/-- The return code, and the memory, for a value. -/
def copiedValue (v : Bytes) (len : Nat) (mem : Contents) : Int × Contents :=
  if v.length < len then
    (v.length + 1, if len = v.length + 1 then
      Function.update (storeAt mem 0 (v ++ [0])) (v.length + 1) 0
    else storeAt mem 0 (v ++ [0]))
  else (len + 1, storeAt mem 0 (v.take len))

/-- What a call leaves. -/
theorem getenvR_eq {data name : Bytes} {es : List Bytes} {configEnvSize : Nat}
    (hm : Holds data es) (hdef : ∀ e ∈ es, IsDef e) (hname : IsName name)
    (hsize : data.length ≤ configEnvSize) (behind : Bytes) (len : Nat) (mem : Contents) :
    (lookup es name = none ∧
      getenvR configEnvSize data (name ++ 0 :: behind) len mem = .ok (-1, mem)) ∨
    ∃ v, lookup es name = some v ∧ 0 ∉ v ∧
      getenvR configEnvSize data (name ++ 0 :: behind) len mem = .ok (copiedValue v len mem) := by
  obtain ⟨r, hr, hcases⟩ := search_lookup hm hdef hname hsize behind
  rw [getenvR, hr]
  rcases hcases with ⟨rfl, hnone⟩ | ⟨env, nxt, P, v, Q, rfl, hval, hv0, harea⟩
  · exact Or.inl ⟨hnone, rfl⟩
  · refine Or.inr ⟨v, hval, hv0, ?_⟩
    have hfuel : v.length < data.length + 1 := by
      rw [harea]
      simp
      omega
    have hcopy := copyOut_cut (P := P) (Q := Q) (n := 0) mem hv0 hfuel (Nat.zero_le len)
    rw [← harea, Nat.zero_add, Nat.sub_zero] at hcopy
    rw [ok_bind, copiedValue]
    dsimp only
    rw [hcopy, ok_bind]
    by_cases hlt : v.length < len
    · rw [if_pos hlt, if_pos hlt]
      rfl
    · rw [if_neg hlt, if_neg hlt]
      change Except.ok (_, if len = len + 1 then _ else _) = _
      rw [if_neg (Nat.ne_of_lt (Nat.lt_succ_self len))]
      rfl

theorem copiedOut_of_room {v : Bytes} {len : Nat} (h : v.length + 1 < len) (mem : Contents) :
    CopiedOut (some v) len mem (copiedValue v len mem) := by
  rw [copiedValue, if_pos (by omega), if_neg (by omega), CopiedOut]
  constructor
  · intro i hi
    refine if_neg fun hin => ?_
    have := hin.2
    rw [List.length_append, List.length_singleton] at this
    omega
  · have hread := readAt_storeAt mem 0 (v ++ [0])
    rw [List.length_append, List.length_singleton] at hread
    rwa [List.take_of_length_le (by omega)]

/-- A value that leaves one byte of the buffer is terminated behind it too. -/
theorem not_copiedOut_of_eq {v : Bytes} {len : Nat} (h : v.length + 1 = len) :
    ¬ CopiedOut (some v) len (fun _ => 1) (copiedValue v len fun _ => 1) := by
  rw [copiedValue, if_pos (by omega), if_pos h.symm, CopiedOut]
  rintro ⟨hbehind, -⟩
  have hzero := hbehind (v.length + 1) (Nat.le_of_eq h.symm)
  dsimp only at hzero
  rw [Function.update_self] at hzero
  cases hzero

/-- A longer value is not terminated. -/
theorem not_copiedOut_of_le {v : Bytes} {len : Nat} (hv0 : 0 ∉ v) (hlen : 0 < len)
    (h : len ≤ v.length) (mem : Contents) :
    ¬ CopiedOut (some v) len mem (copiedValue v len mem) := by
  rw [copiedValue, if_neg (by omega), CopiedOut]
  rintro ⟨-, hstring⟩
  have hcount : (v.take (len - 1)).length + 1 = (v.take len).length := by
    rw [List.length_take, List.length_take]
    omega
  rw [hcount, readAt_storeAt] at hstring
  have hmem : 0 ∈ v.take len := by
    rw [hstring]
    exact List.mem_append_right _ (List.mem_singleton_self 0)
  exact hv0 (List.mem_of_mem_take hmem)

/-- **The value is copied out**, as a string and inside the buffer, exactly when there is room for
its terminator and one byte more. -/
theorem getenvR_copies {data name : Bytes} {es : List Bytes} {configEnvSize len : Nat}
    (hm : Holds data es) (hdef : ∀ e ∈ es, IsDef e) (hname : IsName name)
    (hsize : data.length ≤ configEnvSize) (hlen : 0 < len) (behind : Bytes) :
    (∀ mem, ∃ r, getenvR configEnvSize data (name ++ 0 :: behind) len mem = .ok r ∧
      CopiedOut (lookup es name) len mem r) ↔
    ∀ v ∈ lookup es name, v.length + 1 < len := by
  constructor
  · intro hcopied v hv
    obtain ⟨r, hr, hout⟩ := hcopied fun _ => 1
    rcases getenvR_eq hm hdef hname hsize behind len fun _ => 1 with
      ⟨hnone, -⟩ | ⟨v', hv', hv0, hret⟩
    · rw [hnone] at hv
      cases hv
    · rw [hret] at hr
      cases hr
      rw [hv'] at hv hout
      cases hv
      rcases Nat.lt_trichotomy (v.length + 1) len with hlt | heq | hgt
      · exact hlt
      · exact absurd hout (not_copiedOut_of_eq heq)
      · exact absurd hout (not_copiedOut_of_le hv0 hlen (Nat.le_of_lt_succ hgt) _)
  · intro hroom mem
    rcases getenvR_eq hm hdef hname hsize behind len mem with ⟨hnone, hret⟩ | ⟨v, hv, -, hret⟩
    · rw [hnone]
      exact ⟨_, hret, rfl⟩
    · rw [hv]
      exact ⟨_, hret, copiedOut_of_room (hroom v hv) mem⟩

theorem isName_ip : IsName (str "ip") := ⟨by decide, by decide⟩

theorem getenvR_copies_smallArea : ∃ r,
    getenvR (smallArea.length + 4) smallArea (str "ip" ++ [0]) 3 (fun _ => 1) = .ok r ∧
      CopiedOut (lookup [str "i=7", str "ip=1"] (str "ip")) 3 (fun _ => 1) r :=
  (getenvR_copies holds_smallArea defs_smallArea.isDef isName_ip (by decide) (by decide) []).mpr
    (by decide) _

/-- A buffer of the size of the value is overrun. -/
theorem getenvR_overruns :
    ∃ r, getenvR (smallArea.length + 4) smallArea (str "ip" ++ [0]) 2 (fun _ => 1) = .ok r ∧
      r.2 2 = 0 ∧ ¬ CopiedOut (lookup [str "i=7", str "ip=1"] (str "ip")) 2 (fun _ => 1) r := by
  rcases getenvR_eq holds_smallArea defs_smallArea.isDef isName_ip
    (Nat.le_add_right smallArea.length 4) [] 2 fun _ => 1 with ⟨hnone, -⟩ | ⟨v, hv, -, hret⟩
  · exact absurd hnone (by decide)
  · have hv' : v = str "1" := by
      have hlookup : lookup [str "i=7", str "ip=1"] (str "ip") = some (str "1") := by decide
      rw [hlookup] at hv
      cases hv
      rfl
    subst hv'
    rw [hv]
    exact ⟨_, hret, by decide, not_copiedOut_of_eq (by decide)⟩

end UBoot.Common
