import UBoot.Tools.Mkimage

/-!
# The image that is made of a list of files

A header, the sizes of the files with a zero behind them, and the files, each but the last one
filled up to a multiple of four bytes.  `mkimage` makes this image if each file gets into it by one
`write`, and no image otherwise.
-/

namespace UBoot.Tools.Mkimage

open UBoot.Lib UBoot.LibGeneric

variable {host : Host} {params : Params}

/-- The next multiple of four. -/
def roundUp (n : Nat) : Nat := (n + 3) / 4 * 4

/-- A file, filled up. -/
def padded (f : Bytes) : Bytes := f ++ List.replicate (roundUp f.length - f.length) 0

/-- The words in front of the files. -/
def sizeWords (files : List Bytes) : List Nat :=
  files.map (fun f => cpuToUimage f.length) ++ [0]

/-- The table of the sizes. -/
def sizeTable (files : List Bytes) : Bytes := (sizeWords files).flatMap store32

/-- The files, as they are written. -/
def payload : List Bytes → Bytes
  | [] => []
  | [f] => f
  | f :: g :: files => padded f ++ payload (g :: files)

/-- The bytes of the whole image. -/
def imageSize (files : List Bytes) : Nat :=
  headerSize + 4 * (files.length + 1) + (payload files).length

/-- A file that `copy_file` gets into the image: its size is an `int`, and one `write` takes it. -/
def Whole (host : Host) (f : Bytes) : Prop :=
  f.length < 2 ^ 31 ∧ host.write f.length = some f.length

instance (host : Host) (f : Bytes) : Decidable (Whole host f) :=
  inferInstanceAs (Decidable (_ ∧ _))

/-- A `write` of a few bytes takes them all. -/
def WritesFew (host : Host) : Prop := ∀ c ≤ headerSize, host.write c = some c

theorem length_padded (f : Bytes) : (padded f).length = roundUp f.length := by
  have : f.length ≤ roundUp f.length := by
    simp only [roundUp]
    omega
  simp only [padded, List.length_append, List.length_replicate]
  omega

theorem length_sizeWords (files : List Bytes) : (sizeWords files).length = files.length + 1 := by
  simp [sizeWords]

theorem length_flatMap_store32 (words : List Nat) :
    (words.flatMap store32).length = 4 * words.length := by
  induction words with
  | nil => rfl
  | cons x words ih =>
    rw [List.flatMap_cons, List.length_append, ih, length_store32, List.length_cons]
    omega

theorem length_sizeTable (files : List Bytes) :
    (sizeTable files).length = 4 * (files.length + 1) := by
  rw [sizeTable, length_flatMap_store32, length_sizeWords]

/-- No file is longer than what is written of them all. -/
theorem length_le_payload {files : List Bytes} {f : Bytes} (hf : f ∈ files) :
    f.length ≤ (payload files).length := by
  induction files with
  | nil => cases hf
  | cons g files ih =>
    cases files with
    | nil =>
      rw [List.mem_singleton] at hf
      exact Nat.le_of_eq (by rw [hf, payload])
    | cons h files =>
      rw [payload, List.length_append]
      rcases List.mem_cons.mp hf with rfl | hf
      · have : f.length ≤ (padded f).length := by
          rw [padded, List.length_append]
          omega
        omega
      · have := ih hf
        omega

/-! ## Writing -/

theorem toSizeT_natCast {n : Nat} (h : n < 2 ^ 64) : toSizeT n = n := by
  simp only [toSizeT]
  omega

/-- A `write` that takes everything. -/
theorem writeOrExit_eq {image data : Bytes} {n : Nat} (hn : n < 2 ^ 64) (hlen : data.length = n)
    (hwrite : host.write n = some n) : writeOrExit host image data n = some (image ++ data) := by
  simp only [writeOrExit, write, toSizeT_natCast hn, hwrite, if_true]
  rw [← hlen, List.take_length]

/-- A `write` of a number of bytes that it does not take. -/
theorem writeOrExit_eq_none {image data : Bytes} {n : Nat} (hn : n < 2 ^ 64)
    (hwrite : host.write n ≠ some n) : writeOrExit host image data n = none := by
  cases hw : host.write n with
  | none =>
    simp only [writeOrExit, write, toSizeT_natCast hn, hw]
    exact if_neg (by omega)
  | some m =>
    simp only [writeOrExit, write, toSizeT_natCast hn, hw]
    refine if_neg fun hmn => hwrite ?_
    rw [hw, Int.ofNat.inj hmn]

/-- A `write` never returns a count below -1. -/
theorem writeOrExit_neg {image data : Bytes} {count : Int} (h : count < -1) :
    writeOrExit host image data count = none := by
  cases hw : host.write (toSizeT count) with
  | none =>
    simp only [writeOrExit, write, hw]
    exact if_neg (by omega)
  | some m =>
    simp only [writeOrExit, write, hw]
    exact if_neg (by omega)

theorem toInt_of_lt {n : Nat} (h : n < 2 ^ 31) : toInt n = n := by
  simp only [toInt, Int.bmod_def]
  omega

theorem toInt_of_le {n : Nat} (h : 2 ^ 31 ≤ n) (hn : n < 2 ^ 32) : toInt n = n - 2 ^ 32 := by
  simp only [toInt, Int.bmod_def]
  omega

/-- What `copy_file` does without `-x`. -/
theorem copyFile_def (hx : params.xflag = false) {image name f : Bytes} {pad : Bool}
    (hf : host.fileOf name = some f) (hne : f ≠ []) :
    copyFile host params image name pad =
      (writeOrExit host image f (toInt f.length)).bind fun image =>
        if pad ∧ (toInt f.length).tmod 4 ≠ 0 then
          writeOrExit host image [0, 0, 0, 0] (4 - (toInt f.length).tmod 4)
        else some image := by
  simp [copyFile, hf, hne, hx]

/-- A file that does not get into the image. -/
theorem copyFile_eq_none (hx : params.xflag = false) {image name f : Bytes} {pad : Bool}
    (hf : host.fileOf name = some f) (hne : f ≠ []) (hlen : f.length + 1 < 2 ^ 32)
    (hwhole : ¬ Whole host f) : copyFile host params image name pad = none := by
  rw [copyFile_def hx hf hne]
  have hnone : writeOrExit host image f (toInt f.length) = none := by
    by_cases h : f.length < 2 ^ 31
    · rw [toInt_of_lt h]
      exact writeOrExit_eq_none (by omega) fun hw => hwhole ⟨h, hw⟩
    · rw [toInt_of_le (by omega) (by omega)]
      exact writeOrExit_neg (by omega)
  rw [hnone, Option.bind_none]

/-- The zeros behind a file. -/
theorem write_zeros (hfew : WritesFew host) {image : Bytes} {n : Nat} (h : n % 4 ≠ 0) :
    writeOrExit host image [0, 0, 0, 0] (4 - ((n : Int).tmod 4)) =
      some (image ++ List.replicate (roundUp n - n) 0) := by
  have htail : 4 - (n : Int).tmod 4 = ((roundUp n - n : Nat) : Int) := by
    rw [Int.tmod_eq_emod_of_nonneg (by omega)]
    simp only [roundUp]
    omega
  have hle : roundUp n - n ≤ 4 := by
    simp only [roundUp]
    omega
  have hzeros : [0, 0, 0, 0].take (roundUp n - n) = List.replicate (roundUp n - n) (0 : UInt8) := by
    rw [show [0, 0, 0, 0] = List.replicate 4 (0 : UInt8) from rfl, List.take_replicate,
      Nat.min_eq_left hle]
  rw [htail]
  simp only [writeOrExit, write, toSizeT_natCast (show roundUp n - n < 2 ^ 64 by omega),
    hfew _ (Nat.le_trans hle (by decide)), if_true, hzeros]

/-- A file that gets into the image, as it stands there. -/
theorem copyFile_eq (hfew : WritesFew host) (hx : params.xflag = false) {image name f : Bytes}
    {pad : Bool} (hf : host.fileOf name = some f) (hne : f ≠ []) (hwhole : Whole host f) :
    copyFile host params image name pad = some (image ++ if pad then padded f else f) := by
  obtain ⟨hlen, hwrite⟩ := hwhole
  rw [copyFile_def hx hf hne, toInt_of_lt hlen, writeOrExit_eq (by omega) rfl hwrite,
    Option.bind_some]
  have hmod : (f.length : Int).tmod 4 = ((f.length % 4 : Nat) : Int) := by
    rw [Int.tmod_eq_emod_of_nonneg (by omega)]
    omega
  cases pad with
  | false => simp
  | true =>
    by_cases htail : f.length % 4 = 0
    · have hround : roundUp f.length - f.length = 0 := by
        simp only [roundUp]
        omega
      simp [hmod, htail, padded, hround]
    · have hcond : (true = true) ∧ (f.length : Int).tmod 4 ≠ 0 :=
        ⟨rfl, by rw [hmod]; omega⟩
      rw [if_pos hcond, write_zeros hfew htail, padded, if_pos rfl, List.append_assoc]

/-! ## The two loops over the files -/

/-- The last file of a string. -/
theorem strchr_none {file : Bytes} (h : (strchr file).2 = none) :
    file.splitOn colon = [file] ∧ (strchr file).1 = file := by
  have hdrop : file.dropWhile (· != colon) = [] := by
    cases hd : file.dropWhile (· != colon) with
    | nil => rfl
    | cons c cs => simp [strchr, hd] at h
  have htake : file.takeWhile (· != colon) = file := by
    have := List.takeWhile_append_dropWhile (p := (· != colon)) (l := file)
    rwa [hdrop, List.append_nil] at this
  refine ⟨List.splitOn_eq_singleton_of_beq_eq_false fun x hx => ?_, htake⟩
  rw [← htake] at hx
  simpa using List.all_eq_true.mp List.all_takeWhile x hx

/-- A file of a string that others follow. -/
theorem strchr_some {file rest : Bytes} (h : (strchr file).2 = some rest) :
    file.splitOn colon = (strchr file).1 :: rest.splitOn colon := by
  have happend := List.takeWhile_append_dropWhile (p := (· != colon)) (l := file)
  cases hd : file.dropWhile (· != colon) with
  | nil => simp [strchr, hd] at h
  | cons c cs =>
    have hcs : cs = rest := by simpa [strchr, hd] using h
    have hc : c = colon := by
      have := List.head_dropWhile_not (· != colon) (l := file) (by simp [hd])
      simpa [hd] using this
    have hfront : colon ∉ file.takeWhile (· != colon) := by
      intro hmem
      simpa using List.all_eq_true.mp List.all_takeWhile colon hmem
    rw [hd, hc, hcs] at happend
    rw [← happend, List.splitOn_append_cons_self_of_not_mem hfront, happend]
    rfl

/-- The files of a string, one more each time: the first of them, and those of the rest. -/
theorem files_cons {file : Bytes} {f : Bytes} {files : List Bytes}
    (h : (file.splitOn colon).map host.fileOf = (f :: files).map some) :
    host.fileOf (strchr file).1 = some f ∧
      match (strchr file).2 with
      | none => (strchr file).1 = file ∧ files = []
      | some rest => (rest.splitOn colon).map host.fileOf = files.map some := by
  cases hs : (strchr file).2 with
  | none =>
    obtain ⟨hsplit, hfile⟩ := strchr_none hs
    rw [hsplit, List.map_cons, List.map_cons] at h
    obtain ⟨hf, hrest⟩ := List.cons.inj h
    rw [hfile]
    exact ⟨hf, rfl, List.map_eq_nil_iff.mp hrest.symm⟩
  | some rest =>
    rw [strchr_some hs, List.map_cons, List.map_cons] at h
    exact List.cons.inj h

theorem files_ne_nil {file : Bytes} {files : List Bytes}
    (h : (file.splitOn colon).map host.fileOf = files.map some) : files ≠ [] := by
  rintro rfl
  exact List.splitOn_ne_nil colon file (List.map_eq_nil_iff.mp h)

theorem writeOrExit_word (hfew : WritesFew host) (image : Bytes) (x : Nat) :
    writeOrExit host image (store32 x) 4 = some (image ++ store32 x) :=
  writeOrExit_eq (n := 4) (by decide) rfl (hfew 4 (by decide))

/-- The first loop writes the table. -/
theorem writeSizes_eq (hfew : WritesFew host) {files : List Bytes} :
    ∀ {file image : Bytes}, (file.splitOn colon).map host.fileOf = files.map some →
      writeSizes host image file = some (image ++ sizeTable files) := by
  induction files with
  | nil =>
    intro file image h
    exact absurd rfl (files_ne_nil h)
  | cons f files ih =>
    intro file image h
    obtain ⟨hf, hrest⟩ := files_cons h
    have htable : sizeTable (f :: files) = store32 (cpuToUimage f.length) ++ sizeTable files := rfl
    rw [writeSizes, hf, Option.bind_eq_bind, Option.bind_some, writeOrExit_word hfew,
      Option.bind_some, htable, ← List.append_assoc]
    split
    · rename_i rest hs
      rw [hs] at hrest
      exact ih hrest
    · rename_i hs
      rw [hs] at hrest
      rw [writeOrExit_word hfew, hrest.2]
      rfl

/-- The second loop writes the files, if it gets through. -/
theorem copyFiles_eq (hfew : WritesFew host) (hx : params.xflag = false) {files : List Bytes} :
    ∀ {file image : Bytes}, (file.splitOn colon).map host.fileOf = files.map some →
      (∀ f ∈ files, f ≠ [] ∧ f.length + 1 < 2 ^ 32) →
      copyFiles host params image file =
        if ∀ f ∈ files, Whole host f then some (image ++ payload files) else none := by
  induction files with
  | nil =>
    intro file image h
    exact absurd rfl (files_ne_nil h)
  | cons f files ih =>
    intro file image h hfiles
    obtain ⟨hf, hrest⟩ := files_cons h
    obtain ⟨⟨hne, hlen⟩, hfiles⟩ := List.forall_mem_cons.mp hfiles
    rw [copyFiles]
    split
    · rename_i rest hs
      rw [hs] at hrest
      obtain ⟨g, files, rfl⟩ := List.exists_cons_of_ne_nil (files_ne_nil hrest)
      by_cases hwhole : Whole host f
      · rw [copyFile_eq hfew hx hf hne hwhole, Option.bind_eq_bind, Option.bind_some,
          ih hrest hfiles, if_pos rfl, payload, List.append_assoc]
        refine if_congr ?_ rfl rfl
        rw [List.forall_mem_cons (a := f)]
        exact (and_iff_right hwhole).symm
      · rw [copyFile_eq_none hx hf hne hlen hwhole, if_neg]
        · rfl
        · exact fun hall => hwhole (hall f List.mem_cons_self)
    · rename_i hs
      rw [hs] at hrest
      obtain ⟨hfile, rfl⟩ := hrest
      rw [hfile] at hf
      by_cases hwhole : Whole host f
      · have hall : ∀ g ∈ [f], Whole host g := by
          intro g hg
          rw [List.mem_singleton.mp hg]
          exact hwhole
        rw [copyFile_eq hfew hx hf hne hwhole, if_pos hall]
        rfl
      · rw [copyFile_eq_none hx hf hne hlen hwhole, if_neg]
        exact fun hall => hwhole (hall f List.mem_cons_self)

/-! ## The image -/

theorem length_bytes (hdr : ImageHeader) (h : hdr.ihName.length = ihNmlen) :
    hdr.bytes.length = headerSize := by
  rw [ImageHeader.bytes, List.length_append, h]
  rfl

theorem length_imageSetName (name : Bytes) : (imageSetName name).length = ihNmlen := by
  simp [imageSetName]

/-- The header replaces what has been written in its place. -/
theorem imageSetHeader_eq (host : Host) (params : Params) (ep : Nat) (image : Bytes) :
    ∃ header : Bytes, header.length = headerSize ∧
      imageSetHeader host params ep image = header ++ image.drop headerSize :=
  ⟨_, length_bytes _ (length_imageSetName _), rfl⟩

/-- What `mkimage` makes of the files. -/
theorem mkimage_eq (hfew : WritesFew host) (htype : params.type = .multi ∨ params.type = .script)
    (hx : params.xflag = false) {files : List Bytes}
    (hnames : (params.datafile.splitOn colon).map host.fileOf = files.map some)
    (hfiles : ∀ f ∈ files, f ≠ [] ∧ f.length + 1 < 2 ^ 32) :
    ∃ header : Bytes, header.length = headerSize ∧
      mkimage host params =
        if ∀ f ∈ files, Whole host f then some (header ++ (sizeTable files ++ payload files))
        else none := by
  have hheader : writeOrExit host [] (List.replicate headerSize 0) headerSize =
      some ([] ++ List.replicate headerSize 0) :=
    writeOrExit_eq (by decide) List.length_replicate (hfew headerSize (Nat.le_refl _))
  have hdrop : (List.replicate headerSize 0 ++ sizeTable files ++ payload files).drop headerSize =
      sizeTable files ++ payload files := by
    rw [List.append_assoc]
    exact List.drop_left' List.length_replicate
  obtain ⟨header, hlen, heq⟩ := imageSetHeader_eq host params
    (if params.eflag then params.ep
      else if params.xflag then params.addr + headerSize else params.addr)
    (List.replicate headerSize 0 ++ sizeTable files ++ payload files)
  refine ⟨header, hlen, ?_⟩
  simp only [mkimage, hheader, Option.bind_eq_bind, Option.bind_some, List.nil_append, if_pos htype,
    writeSizes_eq hfew hnames, copyFiles_eq hfew hx hnames hfiles]
  by_cases hwhole : ∀ f ∈ files, Whole host f
  · rw [if_pos hwhole, if_pos hwhole, Option.bind_some, heq, hdrop]
  · rw [if_neg hwhole, if_neg hwhole, Option.bind_none]

end UBoot.Tools.Mkimage
