import FusionFS.CString

/-!
# Paths in the two tiers

`main`, `fusion_fullpath`, `get_hdd_path` and `get_ssd_path` with the arrays they write to. A string
that does not fit its array is undefined, and so is `strncpy` to `NULL`; both are `none`.
-/

namespace FusionFS

def pathMax : Nat := 4096

/-- `strcpy` into an array of `size` bytes. -/
def strcpy (size : Nat) (src : Bytes) : Option Bytes :=
  if src.length < size then some src else none

/-- `strcat` to the string in an array of `size` bytes. -/
def strcat (size : Nat) (dst src : Bytes) : Option Bytes := strcpy size (dst ++ src)

/-- `strncat` to the string in an array of `size` bytes. -/
def strncat (size : Nat) (dst src : Bytes) (n : Nat) : Option Bytes :=
  strcat size dst (src.take n)

namespace Buffered

/-- What `main` stores in `fusion_data->ssd`. -/
def ssd (rootdir : Bytes) : Option Bytes := do
  let ssd ← strcpy pathMax rootdir
  strcat pathMax ssd defaultSsd

def fusionFullpath (ssd path : Bytes) : Option Bytes := do
  let fpath ← strcpy pathMax ssd
  strncat pathMax fpath path pathMax

/-- `strncpy(strstr(s, mount), other, strlen(other))`. -/
def replaceMount (mount other s : Bytes) : Option Bytes :=
  (strstr s mount).map fun i => s.take i ++ other ++ s.drop (i + other.length)

def getHddPath (ssdFpath : Bytes) : Option Bytes := do
  let hddFpath ← strcpy pathMax ssdFpath
  replaceMount defaultSsd defaultHdd hddFpath

def getSsdPath (hddFpath : Bytes) : Option Bytes := do
  let ssdFpath ← strcpy pathMax hddFpath
  replaceMount defaultHdd defaultSsd ssdFpath

/-- The SSD path of a FUSE path, as `main` and `fusion_fullpath` build it. -/
def ssdPath (r : Root) (path : Bytes) : Option Bytes := do
  let ssd ← ssd r.rootdir
  fusionFullpath ssd path

end Buffered

open Buffered

theorem strcpy_of_lt {size : Nat} {src : Bytes} (h : src.length < size) :
    strcpy size src = some src :=
  if_pos h

theorem strcpy_eq_some_iff {size : Nat} {src dst : Bytes} :
    strcpy size src = some dst ↔ src = dst ∧ src.length < size := by
  unfold strcpy
  split
  · next h => exact ⟨fun heq => ⟨Option.some.inj heq, h⟩, fun heq => congrArg some heq.1⟩
  · next h => exact ⟨nofun, fun heq => absurd heq.2 h⟩

theorem ssdPath_eq_some_iff {r : Root} {path fpath : Bytes} :
    ssdPath r path = some fpath ↔ r.fullpath path = fpath ∧ (r.fullpath path).length < pathMax := by
  simp only [ssdPath, ssd, fusionFullpath, strncat, strcat, Option.bind_eq_bind,
    Option.bind_eq_some_iff, strcpy_eq_some_iff]
  constructor
  · rintro ⟨dir, ⟨dir', ⟨rfl, -⟩, rfl, -⟩, dir'', ⟨rfl, -⟩, rfl, hlen⟩
    have hshort : path.take pathMax = path := by
      apply List.take_of_length_le
      simp only [List.length_append, List.length_take] at hlen
      omega
    rw [hshort] at hlen ⊢
    exact ⟨rfl, hlen⟩
  · rintro ⟨rfl, hlen⟩
    have hparts : r.rootdir.length + defaultSsd.length + path.length < pathMax := by
      simpa [Root.fullpath, Root.ssd, Nat.add_assoc] using hlen
    have hshort : path.take pathMax = path := List.take_of_length_le (by omega)
    refine ⟨r.ssd, ⟨r.rootdir, ⟨rfl, by omega⟩, rfl, ?_⟩, r.ssd, ⟨rfl, ?_⟩, ?_⟩
    · rw [List.length_append]
      omega
    · rw [Root.ssd, List.length_append]
      omega
    · rw [hshort]
      exact ⟨rfl, hlen⟩

theorem getHddPath_eq {r : Root} {path fpath : Bytes} (h : ssdPath r path = some fpath) :
    Buffered.getHddPath fpath = some (r.hddpath path) := by
  obtain ⟨rfl, hlen⟩ := ssdPath_eq_some_iff.mp h
  have hcopy : strcpy pathMax (r.fullpath path) = some (r.fullpath path) :=
    strcpy_eq_some_iff.mpr ⟨rfl, hlen⟩
  obtain ⟨i, hi⟩ := Option.isSome_iff_exists.mp r.find_ssd_isSome
  have hfind : strstr (r.fullpath path) defaultSsd = some i := Delimited.find_append_of_some hi
  have hsize : defaultHdd.length = defaultSsd.length := by decide
  rw [← r.getHddPath_fullpath, Buffered.getHddPath, hcopy]
  simp only [Option.bind_eq_bind, Option.bind_some, replaceMount, hfind, Option.map_some,
    FusionFS.getHddPath, hsize]

theorem hddRoot_eq_iff (r : Root) :
    r.hddRoot = r.rootdir ++ defaultHdd ↔ ¬ defaultSsd <:+: r.rootdir := by
  constructor
  · intro heq hin
    -- the first marker stands in the root directory, and the last four bytes stay
    obtain ⟨i, hi⟩ := Option.ne_none_iff_exists'.mp (Delimited.find_ne_none_of_infix hin)
    have hlen : i + defaultSsd.length ≤ r.rootdir.length := Delimited.find_add_length_le hi
    have hfind : strstr r.ssd defaultSsd = some i := Delimited.find_append_of_some hi
    rw [Root.hddRoot, FusionFS.getHddPath, hfind] at heq
    dsimp only at heq
    rw [Root.ssd, List.drop_append_of_le_length hlen, ← List.append_assoc] at heq
    exact absurd (List.append_inj_right' heq (by decide)) (by decide)
  · intro hout
    have hfind : strstr (r.rootdir ++ defaultSsd ++ []) defaultSsd = some r.rootdir.length :=
      Delimited.find_marker_append (by decide) hout
    rw [List.append_nil] at hfind
    rw [Root.hddRoot, FusionFS.getHddPath, Root.ssd, hfind]
    simp

/-- Behind a root directory with no HDD marker of its own, the way back is found. -/
theorem getSsdPath_eq_iff {r : Root} {path fpath : Bytes} (h : ssdPath r path = some fpath) :
    Buffered.getSsdPath (r.rootdir ++ defaultHdd ++ path) = some fpath ↔
      ¬ defaultHdd <:+: r.rootdir := by
  obtain ⟨rfl, hlen⟩ := ssdPath_eq_some_iff.mp h
  have hcopy : strcpy pathMax (r.rootdir ++ defaultHdd ++ path) =
      some (r.rootdir ++ defaultHdd ++ path) := by
    have hsize : defaultHdd.length = defaultSsd.length := by decide
    refine strcpy_eq_some_iff.mpr ⟨rfl, ?_⟩
    simpa [Root.fullpath, Root.ssd, hsize] using hlen
  rw [Buffered.getSsdPath, hcopy, Option.bind_eq_bind, Option.bind_some, replaceMount]
  constructor
  · intro heq hin
    obtain ⟨i, hi⟩ := Option.ne_none_iff_exists'.mp (Delimited.find_ne_none_of_infix hin)
    have hlen : i + defaultHdd.length ≤ r.rootdir.length := Delimited.find_add_length_le hi
    have hfind : strstr (r.rootdir ++ (defaultHdd ++ path)) defaultHdd = some i :=
      Delimited.find_append_of_some hi
    rw [List.append_assoc, hfind, Option.map_some, Option.some.injEq,
      show defaultSsd.length = defaultHdd.length from rfl, List.drop_append_of_le_length hlen,
      Root.fullpath, Root.ssd, ← List.append_assoc, ← List.append_assoc] at heq
    have hmount := List.append_inj_left' heq rfl
    exact absurd (List.append_inj_right' hmount (by decide)) (by decide)
  · intro hout
    have hfind : strstr (r.rootdir ++ defaultHdd ++ path) defaultHdd = some r.rootdir.length :=
      Delimited.find_marker_append (by decide) hout
    have hfront : (r.rootdir ++ defaultHdd ++ path).take r.rootdir.length = r.rootdir := by
      rw [List.append_assoc, List.take_left]
    have hbehind : (r.rootdir ++ defaultHdd ++ path).drop
        (r.rootdir.length + defaultSsd.length) = path := by
      rw [show defaultSsd.length = defaultHdd.length from rfl, ← List.length_append, List.drop_left]
    rw [hfind, Option.map_some, hfront, hbehind]
    rfl

/-- **The tiers mirror each other** exactly under a root directory that has neither mount name in
its own path. -/
theorem tierPaths_iff (r : Root) (path fpath : Bytes) (h : ssdPath r path = some fpath) :
    (Buffered.getHddPath fpath = some (r.rootdir ++ defaultHdd ++ path) ∧
      (Buffered.getHddPath fpath).bind Buffered.getSsdPath = some fpath ∧
      ∀ path' fpath', ssdPath r path' = some fpath' →
        Buffered.getHddPath fpath' = Buffered.getHddPath fpath → path' = path) ↔
    ¬ defaultSsd <:+: r.rootdir ∧ ¬ defaultHdd <:+: r.rootdir := by
  have hinj : ∀ path' fpath', ssdPath r path' = some fpath' →
      Buffered.getHddPath fpath' = Buffered.getHddPath fpath → path' = path := by
    intro path' fpath' h' heq
    rw [getHddPath_eq h', getHddPath_eq h] at heq
    exact r.hddpath_inj.mp (Option.some.inj heq)
  have hmirror : r.hddpath path = r.rootdir ++ defaultHdd ++ path ↔
      ¬ defaultSsd <:+: r.rootdir := by
    rw [Root.hddpath, List.append_left_inj, hddRoot_eq_iff]
  rw [getHddPath_eq h] at hinj ⊢
  rw [Option.bind_some, Option.some.injEq, hmirror]
  constructor
  · rintro ⟨hssd, hback, -⟩
    rw [hmirror.mpr hssd] at hback
    exact ⟨hssd, (getSsdPath_eq_iff h).mp hback⟩
  · rintro ⟨hssd, hhdd⟩
    refine ⟨hssd, ?_, hinj⟩
    rw [hmirror.mpr hssd]
    exact (getSsdPath_eq_iff h).mpr hhdd

/-- A file name may hold both mount names. -/
theorem tierPaths_iff_nested :
    (Buffered.getHddPath (cstr "/mnt/fs/ssd/ssd/hdd/f") =
        some (cstr "/mnt/fs" ++ defaultHdd ++ cstr "/ssd/hdd/f") ∧
      (Buffered.getHddPath (cstr "/mnt/fs/ssd/ssd/hdd/f")).bind Buffered.getSsdPath =
        some (cstr "/mnt/fs/ssd/ssd/hdd/f") ∧
      ∀ path' fpath', ssdPath ⟨cstr "/mnt/fs", by decide⟩ path' = some fpath' →
        Buffered.getHddPath fpath' = Buffered.getHddPath (cstr "/mnt/fs/ssd/ssd/hdd/f") →
        path' = cstr "/ssd/hdd/f") ↔
    ¬ defaultSsd <:+: cstr "/mnt/fs" ∧ ¬ defaultHdd <:+: cstr "/mnt/fs" :=
  tierPaths_iff ⟨cstr "/mnt/fs", by decide⟩ (cstr "/ssd/hdd/f") (cstr "/mnt/fs/ssd/ssd/hdd/f")
    (by decide)

/-- Under `/mnt/ssd1` the HDD path of a file lies outside the root directory. -/
theorem not_tierPaths :
    ¬ ∀ (r : Root) (path fpath : Bytes), ssdPath r path = some fpath →
      Buffered.getHddPath fpath = some (r.rootdir ++ defaultHdd ++ path) ∧
      (Buffered.getHddPath fpath).bind Buffered.getSsdPath = some fpath ∧
      ∀ path' fpath', ssdPath r path' = some fpath' →
        Buffered.getHddPath fpath' = Buffered.getHddPath fpath → path' = path := by
  intro hall
  have hmirror := (hall ⟨cstr "/mnt/ssd1", by decide⟩ (cstr "/f") (cstr "/mnt/ssd1/ssd/f")
    (by decide)).1
  have hcode : Buffered.getHddPath (cstr "/mnt/ssd1/ssd/f") = some (cstr "/mnt/hdd1/ssd/f") := by
    decide
  rw [hcode] at hmirror
  exact absurd hmirror (by decide)

end FusionFS
