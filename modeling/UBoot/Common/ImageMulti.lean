import Mathlib.Data.List.GetD
import UBoot.Common.Image
import UBoot.Tools.MkimageSpec

/-!
# An image of several files, read back

The reader finds as many components as `mkimage` was given files, and each of them where its bytes
lie.  The rounding of the two is the same: the reader's words are those of the table.
-/

namespace UBoot.Common.Image

open UBoot.Lib UBoot.LibGeneric UBoot.Tools.Mkimage

variable {ram : Nat → UInt8} {hdr fuel : Nat} {files : List Bytes} {header : Bytes}

/-- The bytes of an image, in memory from an address on. -/
def Loaded (ram : Nat → UInt8) (hdr : Nat) (image : Bytes) : Prop :=
  ∀ k < image.length, ram (ulong (hdr + k)) = image.getD k 0

/-- A component: its address and its length are those of a part of the image, and the bytes there
are those of the file. -/
def IsComponent (hdr : Nat) (image f : Bytes) (dataLen : Nat × Nat) : Prop :=
  ∃ pos, dataLen = (ulong (hdr + pos), f.length) ∧ pos + f.length ≤ image.length ∧
    (image.drop pos).take f.length = f

/-- The reader finds the files, wherever the image has been loaded. -/
def ReadsBack (files : List Bytes) (image : Bytes) : Prop :=
  ∀ ram hdr fuel, Loaded ram hdr image → files.length < fuel →
    imageMultiCount fuel ram hdr = some files.length ∧
    (∀ i f, files[i]? = some f → ∃ dataLen, imageMultiGetimg fuel ram hdr i = some dataLen ∧
      IsComponent hdr image f dataLen) ∧
    ∀ idx, files.length ≤ idx → imageMultiGetimg fuel ram hdr idx = some (0, 0)

/-- Where a file begins behind the table. -/
def start (files : List Bytes) (i : Nat) : Nat :=
  ((files.take i).map fun f => roundUp f.length).sum

/-! ## Where the files lie -/

theorem start_succ {i : Nat} {f : Bytes} (h : files[i]? = some f) :
    start files (i + 1) = start files i + roundUp f.length := by
  simp [start, List.take_add_one, h]

/-- Each file lies where the sizes in front of it put it. -/
theorem payload_start {i : Nat} {f : Bytes} (h : files[i]? = some f) :
    start files i + f.length ≤ (payload files).length ∧
      ((payload files).drop (start files i)).take f.length = f := by
  induction files generalizing i with
  | nil => simp at h
  | cons g files ih =>
    cases i with
    | zero =>
      obtain rfl : g = f := by simpa using h
      refine ⟨by simpa [start] using length_le_payload List.mem_cons_self, ?_⟩
      cases files with
      | nil => simp [start, payload]
      | cons g files => simp [start, payload, padded]
    | succ i =>
      rw [List.getElem?_cons_succ] at h
      have hstart : start (g :: files) (i + 1) = (padded g).length + start files i := by
        simp [start, length_padded]
      cases files with
      | nil => simp at h
      | cons g' files =>
        obtain ⟨hle, htake⟩ := ih h
        rw [hstart, payload, List.length_append, ← List.drop_drop, List.drop_left]
        exact ⟨by omega, htake⟩

/-! ## The words of the table -/

theorem flatMap_store32_getD {words : List Nat} {i k : Nat} (hi : i < words.length) (hk : k < 4) :
    (words.flatMap store32).getD (4 * i + k) 0 = (store32 (words.getD i 0)).getD k 0 := by
  induction words generalizing i with
  | nil => simp at hi
  | cons x words ih =>
    rw [List.flatMap_cons]
    cases i with
    | zero => rw [List.getD_append _ _ _ _ (by rw [length_store32]; omega), Nat.mul_zero,
        Nat.zero_add, List.getD_cons_zero]
    | succ i =>
      rw [List.getD_append_right _ _ _ _ (by rw [length_store32]; omega), length_store32,
        show 4 * (i + 1) + k - 4 = 4 * i + k by omega, List.getD_cons_succ]
      exact ih (Nat.lt_of_succ_lt_succ hi)

theorem sizeWords_lt (i : Nat) : (sizeWords files).getD i 0 < 2 ^ 32 := by
  rw [List.getD_eq_getElem?_getD]
  cases hi : (sizeWords files)[i]? with
  | none =>
    rw [Option.getD_none]
    omega
  | some x =>
    rcases List.mem_append.mp (List.mem_of_getElem? hi) with h | h
    · obtain ⟨f, -, rfl⟩ := List.mem_map.mp h
      rw [Option.getD_some]
      exact cpuToUimage_lt _
    · rw [List.mem_singleton.mp h, Option.getD_some]
      omega

/-- A word of the table, as the reader sees it. -/
theorem size_eq (hheader : header.length = headerSize)
    (hload : Loaded ram hdr (header ++ (sizeTable files ++ payload files))) {i : Nat}
    (hi : i ≤ files.length) : size ram hdr i = (sizeWords files).getD i 0 := by
  refine load32_eq (sizeWords_lt i) fun k hk => ?_
  have haddr : ulong (imageGetData hdr + 4 * i + k) = ulong (hdr + (headerSize + (4 * i + k))) := by
    rw [imageGetData, Nat.add_assoc, ulong_ulong_add, Nat.add_assoc]
    rfl
  have htable := length_sizeTable files
  have hlen : 4 * i + k < (sizeTable files).length := by omega
  rw [haddr, hload _ (by simp only [List.length_append]; omega),
    List.getD_append_right _ _ _ _ (by omega), hheader, Nat.add_sub_cancel_left,
    List.getD_append _ _ _ _ hlen]
  exact flatMap_store32_getD (by rw [length_sizeWords]; omega) hk

/-- The sizes that the reader sees, and the zero behind them. -/
structure Sees (ram : Nat → UInt8) (hdr : Nat) (files : List Bytes) : Prop where
  size : ∀ i f, files[i]? = some f → uimageToCpu (size ram hdr i) = f.length
  ne_zero : ∀ i < files.length, Image.size ram hdr i ≠ 0
  last : Image.size ram hdr files.length = 0
  bound : 4 * (files.length + 1) + (payload files).length < 2 ^ 32
  length : ∀ f ∈ files, f.length + 3 < 2 ^ 32

theorem sees (hheader : header.length = headerSize)
    (hload : Loaded ram hdr (header ++ (sizeTable files ++ payload files)))
    (hne : ∀ f ∈ files, f ≠ []) (hsize : imageSize files < 2 ^ 32) : Sees ram hdr files := by
  have hbound := hsize
  simp only [imageSize, headerSize] at hbound
  have hlt : ∀ f ∈ files, f.length + 3 < 2 ^ 32 := by
    intro f hf
    have := length_le_payload hf
    omega
  have hword (i : Nat) (f : Bytes) (hi : files[i]? = some f) :
      Image.size ram hdr i = cpuToUimage f.length := by
    have hlen := (List.getElem?_eq_some_iff.mp hi).1
    rw [size_eq hheader hload (Nat.le_of_lt hlen), sizeWords,
      List.getD_append _ _ _ _ (by rwa [List.length_map]), List.getD_eq_getElem?_getD,
      List.getElem?_map, hi, Option.map_some, Option.getD_some]
  refine ⟨fun i f hi => ?_, fun i hi hzero => ?_, ?_, by omega, hlt⟩
  · have := hlt f (List.mem_of_getElem? hi)
    rw [hword i f hi]
    exact uimageToCpu_cpuToUimage (by omega)
  · have hf := List.getElem?_eq_getElem hi
    have hmem := List.getElem_mem hi
    have := hlt _ hmem
    rw [hword i _ hf] at hzero
    exact hne _ hmem (List.length_eq_zero_iff.mp ((cpuToUimage_eq_zero (by omega)).mp hzero))
  · rw [size_eq hheader hload (Nat.le_refl _), sizeWords,
      List.getD_append_right _ _ _ _ (Nat.le_of_eq (List.length_map _)),
      List.length_map, Nat.sub_self]
    rfl

/-! ## The reader -/

/-- The loop counts up to the zero. -/
theorem countSizes_eq (h : Sees ram hdr files) {i : Nat} (hi : i ≤ files.length)
    (hfuel : files.length - i < fuel) : countSizes ram hdr fuel i i = some files.length := by
  have hbound := h.bound
  induction fuel generalizing i with
  | zero => omega
  | succ fuel ih =>
    rw [countSizes]
    rcases Nat.lt_or_eq_of_le hi with hlt | rfl
    · rw [if_neg (h.ne_zero i hlt), ulong_of_lt (by omega)]
      exact ih hlt (by omega)
    · rw [if_pos h.last]

theorem imageMultiCount_eq (h : Sees ram hdr files) (hfuel : files.length < fuel) :
    imageMultiCount fuel ram hdr = some files.length :=
  countSizes_eq h (Nat.zero_le _) (by omega)

/-- The offset is the sum of the sizes in front, each rounded up. -/
theorem offset_eq (h : Sees ram hdr files) {i : Nat} (hi : i < files.length) :
    offset ram hdr i = start files i := by
  have hbound := h.bound
  induction i with
  | zero => rfl
  | succ i ih =>
    have hi' : files[i]? = some files[i] := List.getElem?_eq_getElem (by omega)
    have hstart := (payload_start (List.getElem?_eq_getElem hi)).1
    have hlen := h.length _ (List.mem_of_getElem? hi')
    rw [start_succ hi'] at hstart ⊢
    rw [offset, ih (by omega), h.size i _ hi', ulong_of_lt hlen]
    exact ulong_of_lt (by simp only [roundUp] at hstart; omega)

/-- Each component is found where the file lies. -/
theorem imageMultiGetimg_eq (h : Sees ram hdr files) (hheader : header.length = headerSize)
    (hfuel : files.length < fuel) {i : Nat} {f : Bytes} (hi : files[i]? = some f) :
    ∃ dataLen, imageMultiGetimg fuel ram hdr i = some dataLen ∧
      IsComponent hdr (header ++ (sizeTable files ++ payload files)) f dataLen := by
  have hlen := (List.getElem?_eq_some_iff.mp hi).1
  have hbound := h.bound
  have htable := length_sizeTable files
  obtain ⟨hle, htake⟩ := payload_start hi
  have hpos : headerSize + (4 * (files.length + 1) + start files i) =
      header.length + ((sizeTable files).length + start files i) := by omega
  have haddr : ulong (ulong (imageGetData hdr + ulong (files.length + 1) * 4) + start files i) =
      ulong (hdr + (headerSize + (4 * (files.length + 1) + start files i))) := by
    rw [ulong_of_lt (show files.length + 1 < 2 ^ 32 by omega), imageGetData, ulong_ulong_add,
      Nat.add_assoc, ulong_ulong_add, Nat.add_assoc, Nat.mul_comm]
    rfl
  refine ⟨(ulong (hdr + (headerSize + (4 * (files.length + 1) + start files i))), f.length), ?_,
    headerSize + (4 * (files.length + 1) + start files i), rfl, ?_, ?_⟩
  · simp only [imageMultiGetimg, imageMultiCount_eq h hfuel, Option.bind_eq_bind, Option.bind_some,
      if_pos hlen, offset_eq h hlen, h.size i f hi, haddr]
  · rw [hpos, List.length_append, List.length_append]
    omega
  · rw [hpos, ← List.drop_drop, List.drop_left, ← List.drop_drop, List.drop_left]
    exact htake

theorem imageMultiGetimg_beyond (h : Sees ram hdr files) (hfuel : files.length < fuel) {idx : Nat}
    (hidx : files.length ≤ idx) : imageMultiGetimg fuel ram hdr idx = some (0, 0) := by
  simp only [imageMultiGetimg, imageMultiCount_eq h hfuel, Option.bind_eq_bind, Option.bind_some,
    if_neg (Nat.not_lt.mpr hidx)]

/-- The image of a list of files reads back. -/
theorem readsBack (hheader : header.length = headerSize) (hne : ∀ f ∈ files, f ≠ [])
    (hsize : imageSize files < 2 ^ 32) :
    ReadsBack files (header ++ (sizeTable files ++ payload files)) := by
  intro ram hdr fuel hload hfuel
  have h := sees hheader hload hne hsize
  exact ⟨imageMultiCount_eq h hfuel, fun i f hi => imageMultiGetimg_eq h hheader hfuel hi,
    fun idx hidx => imageMultiGetimg_beyond h hfuel hidx⟩

theorem length_add_one_lt (hsize : imageSize files < 2 ^ 32) {f : Bytes} (hf : f ∈ files) :
    f.length + 1 < 2 ^ 32 := by
  have hle := length_le_payload hf
  simp only [imageSize, headerSize] at hsize
  omega

/-- The files make an image that reads back, of the size the files give it, exactly if each of them
gets into the image by one `write` of an `int` of bytes. -/
theorem multi_roundTrip {host : Host} {params : Params} (hfew : WritesFew host)
    (htype : params.type = .multi ∨ params.type = .script) (hx : params.xflag = false)
    (hnames : (params.datafile.splitOn colon).map host.fileOf = files.map some)
    (hne : ∀ f ∈ files, f ≠ []) (hsize : imageSize files < 2 ^ 32) :
    (∃ image, mkimage host params = some image ∧ image.length = imageSize files ∧
      ReadsBack files image) ↔ ∀ f ∈ files, Whole host f := by
  obtain ⟨header, hheader, heq⟩ := mkimage_eq hfew htype hx hnames
    fun f hf => ⟨hne f hf, length_add_one_lt hsize hf⟩
  rw [heq]
  constructor
  · rintro ⟨image, himage, -⟩
    by_contra hwhole
    rw [if_neg hwhole] at himage
    cases himage
  · intro hwhole
    refine ⟨_, if_pos hwhole, ?_, readsBack hheader hne hsize⟩
    rw [List.length_append, List.length_append, length_sizeTable, hheader, imageSize, Nat.add_assoc]

/-- A machine whose `write` takes everything, with some files. -/
def plainHost (fileOf : Bytes → Option Bytes) : Host where
  fileOf := fileOf
  write := fun count => if count < 2 ^ 63 then some count else none
  mtime := 0

theorem plainHost_writesFew (fileOf : Bytes → Option Bytes) : WritesFew (plainHost fileOf) := by
  intro c hc
  simp only [headerSize] at hc
  exact if_pos (by omega)

/-- `mkimage -T multi -d datafile`. -/
def multiParams (datafile : Bytes) : Params where
  os := 5
  arch := 2
  type := .multi
  comp := 0
  addr := 0
  ep := 0
  eflag := false
  xflag := false
  imagename := []
  datafile := datafile

def twoFiles (name : Bytes) : Option Bytes :=
  if name = [97] then some [1, 2, 3, 4, 5] else if name = [98] then some [6] else none

/-- Five bytes and one. -/
theorem multi_roundTrip_two : ∃ image,
    mkimage (plainHost twoFiles) (multiParams [97, 58, 98]) = some image ∧
      image.length = imageSize [[1, 2, 3, 4, 5], [6]] ∧
      ReadsBack [[1, 2, 3, 4, 5], [6]] image :=
  (multi_roundTrip (plainHost_writesFew twoFiles) (.inl rfl) rfl (by decide) (by decide)
    (by decide)).mpr (by decide)

/-- A file whose size is no `int` makes no image. -/
theorem mkimage_large {f : Bytes} (hlen : f.length = 2 ^ 31) :
    mkimage (plainHost fun _ => some f) (multiParams [97]) = none := by
  have hne : f ≠ [] := by
    rintro rfl
    rw [List.length_nil] at hlen
    omega
  have hfiles : ∀ g ∈ [f], g ≠ [] ∧ g.length + 1 < 2 ^ 32 := by
    intro g hg
    rw [List.mem_singleton.mp hg]
    exact ⟨hne, by omega⟩
  have hnames : ((multiParams [97]).datafile.splitOn colon).map (plainHost fun _ => some f).fileOf =
      [f].map some := rfl
  obtain ⟨header, -, heq⟩ := mkimage_eq (plainHost_writesFew fun _ => some f) (.inl rfl) rfl hnames
    hfiles
  rw [heq]
  refine if_neg fun hwhole => ?_
  have := (hwhole f List.mem_cons_self).1
  omega

theorem imageSize_singleton (f : Bytes) : imageSize [f] = 72 + f.length := by
  simp only [imageSize, headerSize, payload, List.length_singleton]

/-- With a file of 2 ^ 31 bytes there is no image to read. -/
theorem multi_roundTrip_fails : ¬ ∀ (host : Host) (params : Params) (files : List Bytes),
    WritesFew host → params.type = .multi ∨ params.type = .script → params.xflag = false →
    (params.datafile.splitOn colon).map host.fileOf = files.map some →
    (∀ f ∈ files, f ≠ []) → imageSize files < 2 ^ 32 →
    ∃ image, mkimage host params = some image ∧ ReadsBack files image := by
  intro hall
  obtain ⟨f, hlen⟩ : ∃ f : Bytes, f.length = 2 ^ 31 :=
    ⟨List.replicate (2 ^ 31) 0, List.length_replicate⟩
  have hne : ∀ g ∈ [f], g ≠ [] := by
    intro g hg hnil
    rw [List.mem_singleton.mp hg, ← List.length_eq_zero_iff, hlen] at hnil
    omega
  obtain ⟨image, himage, -⟩ := hall (plainHost fun _ => some f) (multiParams [97]) [f]
    (plainHost_writesFew _) (.inl rfl) rfl rfl hne (by rw [imageSize_singleton]; omega)
  rw [mkimage_large hlen] at himage
  cases himage

end UBoot.Common.Image
