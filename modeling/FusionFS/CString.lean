import FusionFS.Lib.Delimited
import Mathlib.Algebra.Order.Ring.Int
import Mathlib.Data.List.DropRight

/-!
# C strings and paths

A C string is the list of its bytes, without the closing zero. A path handed over by FUSE starts
with a slash, and a file path does not end with one; its parent directory is kept under the key that
runs up to and including the last slash.
-/

namespace FusionFS

abbrev Bytes := List UInt8

def cstr (s : String) : Bytes := s.toList.map fun c => UInt8.ofNat c.toNat

def slash : UInt8 := 47

def space : UInt8 := 32

/-- `strstr(hay, needle) - hay`, or `none` for `NULL`. -/
def strstr (hay needle : Bytes) : Option Nat := Delimited.find needle hay

/-- The tokens `strtok(s, " ")` and the calls `strtok(NULL, " ")` after it return. -/
def strtok (s : Bytes) : List Bytes := Delimited.words space [] s

/-- The bytes up to and including the `/` that `strrchr(path, '/')` points at. -/
def dirOf (path : Bytes) : Bytes := path.rdropWhile (· != slash)

/-- The bytes behind the `/` that `strrchr(path, '/')` points at. -/
def baseOf (path : Bytes) : Bytes := path.rtakeWhile (· != slash)

theorem dirOf_append_baseOf (path : Bytes) : dirOf path ++ baseOf path = path := by
  rw [dirOf, baseOf, List.rdropWhile, List.rtakeWhile, ← List.reverse_append,
    List.takeWhile_append_dropWhile, List.reverse_reverse]

theorem slash_notMem_baseOf (path : Bytes) : slash ∉ baseOf path := by
  intro hmem
  have := List.mem_rtakeWhile_imp hmem
  simp at this

theorem getLast?_dirOf {path : Bytes} (h : slash ∈ path) : (dirOf path).getLast? = some slash := by
  have hne : dirOf path ≠ [] := by
    intro hnil
    have hall := List.rdropWhile_eq_nil_iff.mp hnil slash h
    simp at hall
  have hlast := List.rdropWhile_last_not (· != slash) path hne
  rw [List.getLast?_eq_some_getLast hne]
  simpa [dirOf] using hlast

theorem dirOf_append_of_notMem {dir name : Bytes} (hdir : dir.getLast? = some slash)
    (hname : slash ∉ name) : dirOf (dir ++ name) = dir := by
  obtain ⟨init, rfl⟩ := List.getLast?_eq_some_iff.mp hdir
  have hall : ∀ x ∈ name.reverse, (x != slash) = true := by
    intro x hx
    rw [bne_iff_ne]
    exact fun heq => hname (heq ▸ List.mem_reverse.mp hx)
  rw [dirOf, List.rdropWhile, List.reverse_append, List.dropWhile_append_of_pos hall,
    List.reverse_append, List.reverse_singleton, List.singleton_append,
    List.dropWhile_cons_of_neg (by simp)]
  simp

theorem baseOf_append_of_notMem {dir name : Bytes} (hdir : dir.getLast? = some slash)
    (hname : slash ∉ name) : baseOf (dir ++ name) = name := by
  have h := dirOf_append_baseOf (dir ++ name)
  rw [dirOf_append_of_notMem hdir hname] at h
  exact List.append_cancel_left h

/-- A path that names a file: absolute, and with a last component. -/
structure FilePath where
  bytes : Bytes
  absolute : bytes.head? = some slash
  leaf : bytes.getLast? ≠ some slash
  deriving DecidableEq

namespace FilePath

variable (p : FilePath)

def dirname : Bytes := dirOf p.bytes

def fname : Bytes := baseOf p.bytes

theorem ext_bytes {p q : FilePath} (h : p.bytes = q.bytes) : p = q := by
  cases p
  cases q
  cases h
  rfl

theorem slash_mem : slash ∈ p.bytes := List.mem_of_mem_head? p.absolute

@[simp]
theorem dirname_append_fname : p.dirname ++ p.fname = p.bytes := dirOf_append_baseOf p.bytes

theorem slash_notMem_fname : slash ∉ p.fname := slash_notMem_baseOf p.bytes

theorem getLast?_dirname : p.dirname.getLast? = some slash := getLast?_dirOf p.slash_mem

theorem fname_ne_nil : p.fname ≠ [] := by
  intro hnil
  have h := p.dirname_append_fname
  rw [hnil, List.append_nil] at h
  exact p.leaf (h ▸ p.getLast?_dirname)

theorem ne_of_getLast?_slash {key : Bytes} (h : key.getLast? = some slash) : p.bytes ≠ key :=
  fun heq => p.leaf (heq ▸ h)

theorem dirname_ne_append_slash : p.dirname ≠ p.bytes ++ [slash] := by
  intro heq
  have hlen := congrArg List.length p.dirname_append_fname
  rw [heq, List.length_append, List.length_append, List.length_singleton] at hlen
  omega

theorem ne_dirname (q : FilePath) : p.bytes ≠ q.dirname := p.ne_of_getLast?_slash q.getLast?_dirname

end FilePath

/-- `real_ip`: cut the address off at the first `/` and report whether there was one. The cut goes
through a local buffer that is not cleared; `junk` is what it holds behind the copied bytes. -/
def realIp (junk ip : Bytes) : Bool × Bytes :=
  if slash ∈ ip then (true, ip.takeWhile (· != slash) ++ junk) else (false, ip)

theorem realIp_of_notMem {junk ip : Bytes} (h : slash ∉ ip) : realIp junk ip = (false, ip) :=
  if_neg h

def defaultSsd : Bytes := cstr "/ssd"

def defaultHdd : Bytes := cstr "/hdd"

/-- `get_hdd_path`: overwrite the first `/ssd` with `/hdd`. Every caller passes a path below the SSD
directory, so the search never fails. -/
def getHddPath (ssdFpath : Bytes) : Bytes :=
  match strstr ssdFpath defaultSsd with
  | some i => ssdFpath.take i ++ defaultHdd ++ ssdFpath.drop (i + defaultSsd.length)
  | none => ssdFpath

/-- The root directory `main` resolves; `realpath` returns an absolute path. -/
structure Root where
  rootdir : Bytes
  absolute : rootdir.head? = some slash

namespace Root

variable (r : Root)

/-- `fusion_state.ssd`, as `main` builds it. -/
def ssd : Bytes := r.rootdir ++ defaultSsd

/-- `fusion_fullpath`. -/
def fullpath (path : Bytes) : Bytes := r.ssd ++ path

/-- The SSD path of a file, as a path. -/
def filePath (p : FilePath) : FilePath where
  bytes := r.fullpath p.bytes
  absolute := by
    obtain ⟨tail, htail⟩ := List.head?_eq_some_iff.mp r.absolute
    simp [fullpath, ssd, htail]
  leaf := by
    have hne : p.bytes ≠ [] := fun hnil => by simpa [hnil] using p.absolute
    rw [fullpath, List.getLast?_append_of_ne_nil _ hne]
    exact p.leaf

theorem length_lt_fullpath (path : Bytes) : path.length < (r.fullpath path).length := by
  have hfour : defaultSsd.length = 4 := by decide
  simp only [fullpath, ssd, List.length_append]
  omega

/-- The directory `get_hdd_path` sends the SSD directory to. -/
def hddRoot : Bytes := getHddPath r.ssd

theorem find_ssd_isSome : (strstr r.ssd defaultSsd).isSome := by
  rw [Option.isSome_iff_ne_none]
  exact Delimited.find_ne_none_of_infix ⟨r.rootdir, [], by simp [ssd]⟩

/-- The HDD counterpart of a path. -/
def hddpath (path : Bytes) : Bytes := r.hddRoot ++ path

/-- The counterpart of a path keeps everything below the SSD directory, whatever the root is. -/
theorem getHddPath_fullpath (path : Bytes) : getHddPath (r.fullpath path) = r.hddpath path := by
  obtain ⟨i, hi⟩ := Option.isSome_iff_exists.mp r.find_ssd_isSome
  have hlen : i + defaultSsd.length ≤ r.ssd.length := Delimited.find_add_length_le hi
  have hi' : strstr (r.fullpath path) defaultSsd = some i := Delimited.find_append_of_some hi
  rw [getHddPath, hi', hddpath, hddRoot, getHddPath, hi]
  simp only [fullpath]
  rw [List.take_append_of_le_length (by omega), List.drop_append_of_le_length hlen]
  simp

theorem length_hddRoot : r.hddRoot.length = r.ssd.length := by
  obtain ⟨i, hi⟩ := Option.isSome_iff_exists.mp r.find_ssd_isSome
  have hlen : i + defaultSsd.length ≤ r.ssd.length := Delimited.find_add_length_le hi
  have hfour : defaultSsd.length = defaultHdd.length := by decide
  rw [hddRoot, getHddPath, hi]
  simp only [List.length_append, List.length_take, List.length_drop]
  omega

theorem hddRoot_ne_ssd : r.hddRoot ≠ r.ssd := by
  obtain ⟨i, hi⟩ := Option.isSome_iff_exists.mp r.find_ssd_isSome
  intro heq
  have hspec := Delimited.find_spec hi
  rw [hddRoot, getHddPath, hi] at heq
  simp only at heq
  rw [← heq] at hspec
  have hmid := heq.trans (Delimited.find_spec hi)
  rw [List.append_assoc, List.append_assoc] at hmid
  have htail := List.append_cancel_left hmid
  have := (List.append_inj htail (by decide)).1
  exact absurd this (by decide)

theorem fullpath_ne_hddpath (p q : Bytes) : r.fullpath p ≠ r.hddpath q := fun heq =>
  r.hddRoot_ne_ssd (List.append_inj heq r.length_hddRoot.symm).1.symm

@[simp]
theorem fullpath_inj {p q : Bytes} : r.fullpath p = r.fullpath q ↔ p = q :=
  List.append_right_inj _

@[simp]
theorem hddpath_inj {p q : Bytes} : r.hddpath p = r.hddpath q ↔ p = q :=
  List.append_right_inj _

end Root

end FusionFS
