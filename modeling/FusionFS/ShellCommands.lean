import FusionFS.TierPaths
import FusionFS.Lib.Shell

/-!
# Commands for the shell

The strings that are passed to `system`, in the arrays they are built in.
-/

namespace FusionFS.ShellCommands

open Shell (Brackets Ordinary Starts arguments line)

open Buffered (ssdPath)

/-! ### The commands -/

/-- A command is put together from its words, in one array. -/
def concat (cmd : Bytes) : List Bytes → Option Bytes
  | [] => some cmd
  | word :: words => do
      let cmd ← strcat pathMax cmd word
      concat cmd words

/-- `cmd` in `move_file_ssd`. -/
def moveFileSsd (ssdFpath : Bytes) : Option Bytes := do
  let hddFpath ← Buffered.getHddPath ssdFpath
  let cmd ← strcpy pathMax (cstr "mv ")
  concat cmd [ssdFpath, cstr " ", hddFpath]

/-- `cmd` in `move_file_hdd`. -/
def moveFileHdd (ssdFpath : Bytes) : Option Bytes := do
  let hddFpath ← Buffered.getHddPath ssdFpath
  let cmd ← strcpy pathMax (cstr "mv ")
  concat cmd [hddFpath, cstr " ", ssdFpath]

/-- `rmcmd` in `fusion_rmdir`. -/
def fusionRmdir (fpath : Bytes) : Option Bytes := do
  let cmd ← strcpy pathMax (cstr "rm -r ")
  concat cmd [fpath]

/-- `cmd_mkdir` in `fusion_getattr`. -/
def fusionGetattr (fpath : Bytes) : Option Bytes := do
  let cmd ← strcpy pathMax (cstr "mkdir -p ")
  concat cmd [fpath]

/-- The command fits its array and has these arguments, whatever files there are. -/
def Names (loc : Brackets) (cmd : Option Bytes) (args : List Bytes) : Prop :=
  ∃ s, cmd = some s ∧ ∀ files, files.Nodup → arguments loc files s = some args

/-! ### Their words -/

variable {loc : Brackets} {r : Root} {path : Bytes}

theorem concat_eq_some_iff {cmd s : Bytes} {words : List Bytes} (hcmd : cmd.length < pathMax) :
    concat cmd words = some s ↔ cmd ++ words.flatten = s ∧ s.length < pathMax := by
  induction words generalizing cmd with
  | nil =>
      rw [concat, Option.some.injEq, List.flatten_nil, List.append_nil]
      constructor
      · rintro rfl
        exact ⟨rfl, hcmd⟩
      · exact fun h => h.1
  | cons word words ih =>
      rw [concat, List.flatten_cons, ← List.append_assoc]
      simp only [strcat, Option.bind_eq_bind, Option.bind_eq_some_iff, strcpy_eq_some_iff]
      constructor
      · rintro ⟨cmd', ⟨rfl, hlen⟩, h⟩
        exact (ih hlen).mp h
      · rintro ⟨rfl, hlen⟩
        have hfits : (cmd ++ word).length < pathMax := by
          rw [List.length_append] at hlen
          omega
        exact ⟨_, ⟨rfl, hfits⟩, (ih hfits).mpr ⟨rfl, hlen⟩⟩

/-- A command that is its words on a line names what is ordinary. -/
theorem names_iff {cmd : Option Bytes} {args : List Bytes} (hne : args ≠ [])
    (hstart : ∀ w ∈ args, Starts w)
    (hcmd : ∀ s, cmd = some s ↔ line args = s ∧ s.length < pathMax) :
    Names loc cmd args ↔ (line args).length < pathMax ∧ ∀ w ∈ args, Ordinary loc w := by
  rw [Names, ← Shell.arguments_iff loc hne hstart]
  constructor
  · rintro ⟨s, hs, hargs⟩
    obtain ⟨rfl, hlen⟩ := (hcmd s).mp hs
    exact ⟨hlen, hargs⟩
  · rintro ⟨hlen, hargs⟩
    exact ⟨_, (hcmd _).mpr ⟨rfl, hlen⟩, hargs⟩

theorem starts_fullpath (r : Root) (path : Bytes) : Starts (r.fullpath path) := by
  obtain ⟨tail, htail⟩ := List.head?_eq_some_iff.mp r.absolute
  refine ⟨slash, ?_, by decide, by decide⟩
  rw [Root.fullpath, Root.ssd, htail]
  rfl

theorem starts_hddpath (r : Root) (path : Bytes) : Starts (r.hddpath path) := by
  obtain ⟨i, hi⟩ := Option.isSome_iff_exists.mp r.find_ssd_isSome
  obtain ⟨tail, htail⟩ := List.head?_eq_some_iff.mp r.absolute
  refine ⟨slash, ?_, by decide, by decide⟩
  rw [Root.hddpath, Root.hddRoot, FusionFS.getHddPath, hi]
  cases i with
  | zero => rfl
  | succ i =>
      rw [Root.ssd, htail]
      rfl

theorem command_eq_some_iff {build : Bytes → Option Bytes} {args : List Bytes}
    (hbuild : ssdPath r path = some (r.fullpath path) →
      ∀ s, build (r.fullpath path) = some s ↔ line args = s ∧ s.length < pathMax)
    (hlong : (r.fullpath path).length < (line args).length) (s : Bytes) :
    (ssdPath r path).bind build = some s ↔ line args = s ∧ s.length < pathMax := by
  rw [Option.bind_eq_some_iff]
  constructor
  · rintro ⟨fpath, hf, hs⟩
    obtain ⟨rfl, -⟩ := ssdPath_eq_some_iff.mp hf
    exact (hbuild hf s).mp hs
  · rintro ⟨rfl, hlen⟩
    have hf : ssdPath r path = some (r.fullpath path) :=
      ssdPath_eq_some_iff.mpr ⟨rfl, Nat.lt_trans hlong hlen⟩
    exact ⟨_, hf, (hbuild hf _).mpr ⟨rfl, hlen⟩⟩

theorem build_eq_some_iff {program s : Bytes} {words : List Bytes}
    (hprogram : program.length < pathMax) :
    (do let cmd ← strcpy pathMax program; concat cmd words) = some s ↔
      program ++ words.flatten = s ∧ s.length < pathMax := by
  rw [strcpy_eq_some_iff.mpr ⟨rfl, hprogram⟩]
  exact concat_eq_some_iff hprogram

theorem mv_iff {build : Bytes → Option Bytes} {src dst : Bytes} (hsrc : Starts src)
    (hdst : Starts dst) (hlong : (r.fullpath path).length < (line [cstr "mv", src, dst]).length)
    (hbuild : ssdPath r path = some (r.fullpath path) →
      build (r.fullpath path) =
        (do let cmd ← strcpy pathMax (cstr "mv "); concat cmd [src, cstr " ", dst])) :
    Names loc ((ssdPath r path).bind build) [cstr "mv", src, dst] ↔
      src.length + dst.length + 4 < pathMax ∧ Ordinary loc src ∧ Ordinary loc dst := by
  have hline : line [cstr "mv", src, dst] = cstr "mv " ++ [src, cstr " ", dst].flatten := by
    simp [line, List.intercalate, cstr]
  have hmv : Ordinary loc (cstr "mv") := Ordinary.of_plain (by decide)
  rw [names_iff (by simp)]
  · have hlen : (line [cstr "mv", src, dst]).length = src.length + dst.length + 4 := by
      simp [line, List.intercalate, cstr]
      omega
    simp [hlen, hmv]
  · intro w hw
    simp only [List.mem_cons, List.not_mem_nil, or_false] at hw
    rcases hw with rfl | rfl | rfl
    · exact ⟨_, rfl, by decide, by decide⟩
    · exact hsrc
    · exact hdst
  · apply command_eq_some_iff _ hlong
    intro hf s
    rw [hbuild hf, build_eq_some_iff (by decide), hline]

theorem option_iff {build : Bytes → Option Bytes} {program option front : Bytes}
    (hfront : front = program ++ 32 :: (option ++ [32])) (hfits : front.length < pathMax)
    (hprogram : Ordinary loc program ∧ Starts program) (hoption : Ordinary loc option ∧ Starts option)
    (hbuild : ∀ fpath, build fpath = (do let cmd ← strcpy pathMax front; concat cmd [fpath])) :
    Names loc ((ssdPath r path).bind build) [program, option, r.fullpath path] ↔
      front.length + (r.fullpath path).length < pathMax ∧ Ordinary loc (r.fullpath path) := by
  have hline : line [program, option, r.fullpath path] = front ++ [r.fullpath path].flatten := by
    rw [hfront]
    simp [line, List.intercalate]
  rw [names_iff (by simp)]
  · rw [hline]
    simp [hprogram.1, hoption.1]
  · intro w hw
    simp only [List.mem_cons, List.not_mem_nil, or_false] at hw
    rcases hw with rfl | rfl | rfl
    · exact hprogram.2
    · exact hoption.2
    · exact starts_fullpath r path
  · apply command_eq_some_iff
    · intro _ s
      rw [hbuild, build_eq_some_iff hfits, hline]
    · rw [hline, hfront]
      simp
      omega

/-- **Every command names its files** exactly if it fits its array and the paths in it are ordinary
words: no blank, quote, operator or value in them, and no other pathname that they match. -/
theorem shellCommands_iff (loc : Brackets) (r : Root) (path : Bytes) :
    (Names loc ((ssdPath r path).bind moveFileSsd)
        [cstr "mv", r.fullpath path, r.hddpath path] ↔
      (r.fullpath path).length + (r.hddpath path).length + 4 < pathMax ∧
        Ordinary loc (r.fullpath path) ∧ Ordinary loc (r.hddpath path)) ∧
    (Names loc ((ssdPath r path).bind moveFileHdd)
        [cstr "mv", r.hddpath path, r.fullpath path] ↔
      (r.hddpath path).length + (r.fullpath path).length + 4 < pathMax ∧
        Ordinary loc (r.hddpath path) ∧ Ordinary loc (r.fullpath path)) ∧
    (Names loc ((ssdPath r path).bind fusionRmdir) [cstr "rm", cstr "-r", r.fullpath path] ↔
      6 + (r.fullpath path).length < pathMax ∧ Ordinary loc (r.fullpath path)) ∧
    (Names loc ((ssdPath r path).bind fusionGetattr) [cstr "mkdir", cstr "-p", r.fullpath path] ↔
      9 + (r.fullpath path).length < pathMax ∧ Ordinary loc (r.fullpath path)) := by
  have hssd := starts_fullpath r path
  have hhdd := starts_hddpath r path
  refine ⟨?_, ?_, ?_, ?_⟩
  · apply mv_iff hssd hhdd
    · simp [line, List.intercalate]
      omega
    · intro hf
      rw [moveFileSsd, getHddPath_eq hf]
      rfl
  · apply mv_iff hhdd hssd
    · simp [line, List.intercalate]
      omega
    · intro hf
      rw [moveFileHdd, getHddPath_eq hf]
      rfl
  · have hfront : cstr "rm -r " = cstr "rm" ++ 32 :: (cstr "-r" ++ [32]) := by decide
    exact option_iff hfront (by decide)
      ⟨Ordinary.of_plain (by decide), _, rfl, by decide, by decide⟩
      ⟨Ordinary.of_plain (by decide), _, rfl, by decide, by decide⟩ fun _ => rfl
  · have hfront : cstr "mkdir -p " = cstr "mkdir" ++ 32 :: (cstr "-p" ++ [32]) := by decide
    exact option_iff hfront (by decide)
      ⟨Ordinary.of_plain (by decide), _, rfl, by decide, by decide⟩
      ⟨Ordinary.of_plain (by decide), _, rfl, by decide, by decide⟩ fun _ => rfl

/-- Removing the directory `/f x` removes `/f`, and a file `x` of the working directory. -/
theorem not_shellCommands :
    (ssdPath ⟨cstr "/mnt", by decide⟩ (cstr "/f x")).bind fusionRmdir =
        some (cstr "rm -r /mnt/ssd/f x") ∧
      arguments ⟨fun _ => none⟩ [] (cstr "rm -r /mnt/ssd/f x") =
        some [cstr "rm", cstr "-r", cstr "/mnt/ssd/f", cstr "x"] ∧
      ¬ Names ⟨fun _ => none⟩ ((ssdPath ⟨cstr "/mnt", by decide⟩ (cstr "/f x")).bind fusionRmdir)
        [cstr "rm", cstr "-r", cstr "/mnt/ssd/f x"] := by
  have hcmd : (ssdPath ⟨cstr "/mnt", by decide⟩ (cstr "/f x")).bind fusionRmdir =
      some (cstr "rm -r /mnt/ssd/f x") := by
    decide +kernel
  have hargs : arguments ⟨fun _ => none⟩ [] (cstr "rm -r /mnt/ssd/f x") =
      some [cstr "rm", cstr "-r", cstr "/mnt/ssd/f", cstr "x"] := by
    rw [Shell.arguments_nil]
    decide +kernel
  refine ⟨hcmd, hargs, ?_⟩
  rintro ⟨s, hs, hnames⟩
  obtain rfl := Option.some.inj (hcmd.symm.trans hs)
  have hsame := hargs.symm.trans (hnames [] List.nodup_nil)
  exact absurd hsame (by decide)

end FusionFS.ShellCommands
