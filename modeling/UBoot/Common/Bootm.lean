import UBoot.LibGeneric.Vsprintf

/-!
# The stages of `bootm`

`do_bootm_subcommand` and `bootm_start` of `common/cmd_bootm.c`, with `find_cmd_tbl` of
`common/command.c`, which takes an abbreviation of a name if there is only one such name.

What the functions called answer is a parameter of each call: `boot_get_kernel` and its like for
`start`, the decompressors, the relocations and the operating system's own function for the stages.
None of them writes `images.state`, so they get the other fields only.
-/

namespace UBoot.Common.Bootm

open UBoot.Lib UBoot.LibGeneric

/-- `BOOTM_STATE_START` and its like. -/
inductive BootmState where
  | start
  | loados
  | ramdisk
  | fdt
  | osCmdline
  | osBdT
  | osPrep
  | osGo
  deriving DecidableEq, Repr

/-- The bit of a state. -/
def BootmState.bit : BootmState → Nat
  | start => 0x01
  | loados => 0x02
  | ramdisk => 0x04
  | fdt => 0x08
  | osCmdline => 0x10
  | osBdT => 0x20
  | osPrep => 0x40
  | osGo => 0x80

/-- What is compiled in. -/
structure Config where
  /-- `CONFIG_FIT` -/
  fit : Bool
  /-- `CONFIG_OF_LIBFDT` -/
  ofLibfdt : Bool
  /-- `CONFIG_SYS_BOOTMAPSZ` -/
  bootmapsz : Bool
  /-- `CONFIG_PPC`, `CONFIG_M68K` or `CONFIG_SPARC` -/
  relocates : Bool
  /-- the compression types that `bootm_load_os` knows besides none -/
  comps : List Nat

/-- `image_info_t` -/
structure ImageInfo where
  start : Nat
  blobEnd : Nat
  imageStart : Nat
  imageLen : Nat
  load : Nat
  comp : Nat
  type : Nat
  os : Nat
  deriving DecidableEq, Repr

/-- The fields of `bootm_headers_t` besides `state`; `L` is `struct lmb`. -/
structure ImageFields (L : Type) where
  verify : Int
  legacyHdrValid : Bool
  fitUnameOs : Bool
  os : ImageInfo
  ep : Nat
  rdStart : Nat
  rdEnd : Nat
  ftAddr : Nat
  ftLen : Nat
  initrdStart : Nat
  initrdEnd : Nat
  cmdlineStart : Nat
  cmdlineEnd : Nat
  kbd : Nat
  lmb : L
  deriving DecidableEq, Repr

/-- `bootm_headers_t` -/
structure Images (L : Type) extends ImageFields L where
  state : Nat
  deriving DecidableEq, Repr

/-- `memset ((void *)&images, 0, sizeof (images))` -/
def Images.zero {L : Type} (lmb : L) : Images L :=
  ⟨⟨0, false, false, ⟨0, 0, 0, 0, 0, 0, 0, 0⟩, 0, 0, 0, 0, 0, 0, 0, 0, 0, 0, lmb⟩, 0⟩

/-- What is printed. -/
inductive Out where
  | puts (s : String)
  | cmdUsage
  deriving DecidableEq, Repr

/-- What a call leaves behind, with the stage that it has executed.  It does not return if it has
called a null pointer. -/
structure Result (L : Type) where
  ret : Option Int
  images : Images L
  out : List Out
  ran : Option BootmState

variable {L : Type}

/-! ## `bootm start` -/

/-- What the header of the image says, or the property of each name in a FIT image. -/
inductive ImageFormat where
  | legacy (type comp os imageEnd load : Nat)
  | fit (type comp os : Option Nat) (fitEnd : Nat) (load : Option Nat)
  | unknown

/-- What the functions that `bootm_start` calls find. -/
structure StartAnswers (L : Type) where
  verify : Int
  lmb : L
  osHdr : Nat
  imageStart : Nat
  imageLen : Nat
  legacyHdrValid : Bool
  fitUnameOs : Bool
  format : ImageFormat
  legacyEp : Nat
  fitEntry : Option Nat
  ramdisk : Option (Nat × Nat)
  fdt : Option (Nat × Nat)

/-- The images so far, and the text of the error that ends `bootm_start`. -/
abbrev Attempt (L α : Type) := Except (Images L × String) α

/-- Go on with a value, or leave with an error. -/
def orFail {α : Type} (images : Images L) (text : String) : Option α → Attempt L α
  | some x => .ok x
  | none => .error (images, text)

/-- `switch (genimg_get_format (os_hdr))` -/
def getParameters (cfg : Config) (images : Images L) : ImageFormat → Attempt L (Images L)
  | .legacy type comp os imageEnd load =>
    let info := images.os
    .ok { images with
      os := ⟨info.start, imageEnd, info.imageStart, info.imageLen, load, comp, type, os⟩ }
  | .fit type comp os fitEnd load =>
    if cfg.fit then do
      let type ← orFail images "Can't get image type!\n" type
      let images := { images with os := { images.os with type := type } }
      let comp ← orFail images "Can't get image compression!\n" comp
      let images := { images with os := { images.os with comp := comp } }
      let os ← orFail images "Can't get image OS!\n" os
      let images := { images with os := { images.os with os := os, blobEnd := fitEnd } }
      let load ← orFail images "Can't get image load address!\n" load
      .ok { images with os := { images.os with load := load } }
    else .error (images, "ERROR: unknown image format type!\n")
  | .unknown => .error (images, "ERROR: unknown image format type!\n")

/-- "find kernel entry point" -/
def findEntry (cfg : Config) (a : StartAnswers L) (images : Images L) : Attempt L (Images L) :=
  if images.legacyHdrValid then .ok { images with ep := a.legacyEp }
  else if cfg.fit ∧ images.fitUnameOs then do
    let ep ← orFail images "Can't get entry point property!\n" a.fitEntry
    .ok { images with ep := ep }
  else .error (images, "Could not find kernel entry point!\n")

/-- `IH_TYPE_KERNEL` -/
def ihTypeKernel : Nat := 2

/-- `IH_TYPE_MULTI` -/
def ihTypeMulti : Nat := 4

/-- `IH_OS_LINUX` -/
def ihOsLinux : Nat := 5

/-- "find ramdisk" and "find flattened device tree" -/
def findRamdisk (cfg : Config) (a : StartAnswers L) (images : Images L) : Attempt L (Images L) :=
  if (images.os.type = ihTypeKernel ∨ images.os.type = ihTypeMulti) ∧ images.os.os = ihOsLinux then
    do
      let rd ← orFail images "Ramdisk image is corrupt or invalid\n" a.ramdisk
      let images := { images with rdStart := rd.1, rdEnd := rd.2 }
      if cfg.ofLibfdt ∧ cfg.relocates then
        let ft ← orFail images "Could not find a valid device tree\n" a.fdt
        .ok { images with ftAddr := ft.1, ftLen := ft.2 }
      else .ok images
  else .ok images

/-- What `bootm_start` does once it has called `boot_get_kernel`. -/
def startImages (cfg : Config) (a : StartAnswers L) (images : Images L) : Attempt L (Images L) :=
  if images.os.imageLen = 0 then .error (images, "ERROR: can't get kernel image!\n")
  else do
    let images ← getParameters cfg images a.format
    let images ← findEntry cfg a images
    findRamdisk cfg a images

/-- `images` behind `boot_get_kernel`. -/
def gotKernel (a : StartAnswers L) : Images L :=
  let images := Images.zero a.lmb
  { images with
    verify := a.verify, legacyHdrValid := a.legacyHdrValid, fitUnameOs := a.fitUnameOs,
    os := { images.os with imageStart := a.imageStart, imageLen := a.imageLen } }

/-- `bootm_start` -/
def bootmStart (cfg : Config) (a : StartAnswers L) : Result L :=
  match startImages cfg a (gotKernel a) with
  | .error (images, text) => ⟨some 1, images, [.puts text], some .start⟩
  | .ok images =>
    ⟨some 0, { images with
      os := { images.os with start := a.osHdr }, state := BootmState.start.bit }, [], some .start⟩

/-! ## The other stages -/

/-- `BOOTM_ERR_RESET` -/
def bootmErrReset : Int := -1

/-- `BOOTM_ERR_OVERLAP` -/
def bootmErrOverlap : Int := -2

/-- `BOOTM_ERR_UNIMPLEMENTED` -/
def bootmErrUnimplemented : Int := -3

/-- `bootm_load_os`: the return value and `*load_end`.  The decompressor gives a length. -/
def bootmLoadOs (cfg : Config) (os : ImageInfo) (decompress : Option Nat) : Int × Nat :=
  let overlap (loadEnd : Nat) : Int :=
    if os.load < os.blobEnd ∧ os.start < loadEnd then bootmErrOverlap else 0
  if os.comp = 0 then (overlap (os.load + os.imageLen), os.load + os.imageLen)
  else if os.comp ∈ cfg.comps then
    match decompress with
    | none => (bootmErrReset, 0)
    | some len => (overlap (os.load + len), os.load + len)
  else (bootmErrUnimplemented, 0)

/-- `boot_os_fn`, for the flag of a subcommand. -/
abbrev BootOsFn (L : Type) := BootmState → ImageFields L → Int × ImageFields L

/-- The functions that the stages call. -/
structure Board (L : Type) where
  config : Config
  /-- `boot_os`; no function where it holds a null pointer -/
  bootOs : Nat → Option (BootOsFn L)
  /-- `lmb_reserve` -/
  lmbReserve : L → Nat → Nat → L

/-- What they find in one call. -/
structure StageAnswers (L : Type) where
  decompress : Option Nat
  /-- `boot_ramdisk_high` -/
  ramdiskHigh : ImageFields L → Int × Nat × Nat × L
  /-- `boot_relocate_fdt` -/
  relocateFdt : ImageFields L → Int × Nat × Nat × L

/-- `boot_fn (state, argc, argv, &images)` -/
def bootFn (b : Board L) (images : Images L) (state : BootmState) : Option Int × Images L :=
  match b.bootOs images.os.os with
  | none => (none, images)
  | some f =>
    let (ret, fields) := f state images.toImageFields
    (some ret, { images with toImageFields := fields })

/-- `switch (state)`: `ret` and `images`. -/
def runStage (b : Board L) (a : StageAnswers L) (images : Images L) (state : BootmState) :
    Option Int × Images L × List Out :=
  let boot (text : String) :=
    let (ret, images) := bootFn b images state
    (ret, images, if ∃ r ∈ ret, r ≠ 0 then [.puts text] else [])
  match state with
  | .start => (some 0, images, [])
  | .loados =>
    let (ret, loadEnd) := bootmLoadOs b.config images.os a.decompress
    if ret ≠ 0 then (some ret, images, [])
    else
      let lmb := b.lmbReserve images.lmb images.os.load (loadEnd - images.os.load)
      (some 0, { images with lmb := lmb }, [])
  | .ramdisk =>
    let (ret, initrdStart, initrdEnd, lmb) := a.ramdiskHigh images.toImageFields
    (some ret, { images with initrdStart := initrdStart, initrdEnd := initrdEnd, lmb := lmb }, [])
  | .fdt =>
    if b.config.bootmapsz then
      let (ret, ftAddr, ftLen, lmb) := a.relocateFdt images.toImageFields
      (some ret, { images with ftAddr := ftAddr, ftLen := ftLen, lmb := lmb }, [])
    else (some 0, images, [])
  | .osCmdline => boot "cmdline subcommand not supported\n"
  | .osBdT => boot "bdt subcommand not supported\n"
  | .osPrep => boot "prep subcommand not supported\n"
  | .osGo =>
    let (ret, images) := bootFn b images state
    (ret.map fun _ => 0, images, [])

/-! ## Subcommands -/

/-- `cmd_bootm_sub` -/
def cmdBootmSub (cfg : Config) : List (Bytes × BootmState) :=
  [(str "start", .start), (str "loados", .loados)] ++
  (if cfg.relocates then [(str "ramdisk", .ramdisk)] else []) ++
  (if cfg.ofLibfdt then [(str "fdt", .fdt)] else []) ++
  [(str "cmdline", .osCmdline), (str "bdt", .osBdT), (str "prep", .osPrep), (str "go", .osGo)]

/-- The loop of `find_cmd_tbl`, with `cmdtp_temp` and `n_found`. -/
def findLoop {α : Type} (cmd : Bytes) : List (Bytes × α) → Option α → Nat → Option α
  | [], temp, found => if found = 1 then temp else none
  | (name, c) :: table, temp, found =>
    if cmd <+: name then
      if cmd.length = name.length then some c else findLoop cmd table (some c) (found + 1)
    else findLoop cmd table temp found

/-- `find_cmd_tbl`; the name ends at the first dot. -/
def findCmdTbl {α : Type} (cmd : Bytes) (table : List (Bytes × α)) : Option α :=
  findLoop (cmd.takeWhile (· ≠ 0x2E)) table none 0

/-- A call of `bootm` with a subcommand as `argv[1]`. -/
structure Call (L : Type) where
  argv1 : Bytes
  start : StartAnswers L
  stage : StageAnswers L

/-- `do_bootm_subcommand` -/
def doBootmSubcommand (b : Board L) (call : Call L) (images : Images L) : Result L :=
  match findCmdTbl call.argv1 (cmdBootmSub b.config) with
  | none => ⟨some 1, images, [.cmdUsage], none⟩
  | some .start => bootmStart b.config call.start
  | some state =>
    if state.bit ≤ images.state then
      ⟨some 1, images, [.puts "Trying to execute a command out of order\n", .cmdUsage], none⟩
    else
      let (ret, images, out) :=
        runStage b call.stage { images with state := images.state ||| state.bit } state
      ⟨ret, images, out, some state⟩

end UBoot.Common.Bootm
