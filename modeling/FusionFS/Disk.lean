import FusionFS.CString
import Mathlib.Logic.Function.Basic

/-!
# The local file system of a node

Directory entries by absolute path, file contents by inode, and the system calls the node makes on
them. Only the last component of a path is ever a symbolic link. Directories matter to `access`,
`lstat` and `creat` alone; every directory a path runs through is there.
-/

namespace FusionFS

inductive DirEntry where
  | file (ino : Nat)
  | link (target : Bytes)
  deriving DecidableEq

instance (e : Option DirEntry) : Decidable (∃ i, e = some (.file i)) :=
  match e with
  | none => .isFalse fun h => h.elim fun _ heq => by cases heq
  | some (.file i) => .isTrue ⟨i, rfl⟩
  | some (.link _) => .isFalse fun h => h.elim fun _ heq => by cases heq

structure Disk where
  entry : Bytes → Option DirEntry
  dir : Bytes → Bool
  data : Nat → Bytes
  nextIno : Nat

/-- The number of links the kernel follows before it gives up with `ELOOP`. -/
def maxSymlinks : Nat := 40

namespace Disk

variable (d : Disk)

def setEntry (path : Bytes) (e : Option DirEntry) : Disk :=
  { d with entry := Function.update d.entry path e }

def setData (ino : Nat) (content : Bytes) : Disk :=
  { d with data := Function.update d.data ino content }

/-- Follow the links a path ends in. -/
def resolve : Nat → Bytes → Option Bytes
  | 0, _ => none
  | fuel + 1, path =>
      match d.entry path with
      | some (.link target) => resolve fuel target
      | _ => some path

/-- The file `open` or `stat` reaches. -/
def openIno (path : Bytes) : Option Nat := do
  let real ← d.resolve maxSymlinks path
  match d.entry real with
  | some (.file i) => some i
  | _ => none

/-- `access(path, F_OK)` succeeds. -/
def access (path : Bytes) : Bool :=
  match d.resolve maxSymlinks path with
  | some real => (d.entry real).isSome || d.dir real
  | none => false

/-- `lstat` succeeds. -/
def lstat (path : Bytes) : Bool := (d.entry path).isSome || d.dir path

/-- A new, empty file. -/
def newFile (path : Bytes) : Disk :=
  { (d.setEntry path (some (.file d.nextIno))).setData d.nextIno [] with nextIno := d.nextIno + 1 }

/-- `creat`, or `open` with `O_CREAT` and `O_TRUNC`. -/
def creat (path : Bytes) : Option (Nat × Disk) := do
  let real ← d.resolve maxSymlinks path
  match d.entry real with
  | some (.file i) => some (i, d.setData i [])
  | _ => if d.dir real then none else some (d.nextIno, d.newFile real)

/-- Write a whole file through an output stream. -/
def store (path content : Bytes) : Disk :=
  match d.creat path with
  | some (i, d') => d'.setData i content
  | none => d

/-- `unlink`, which fails when there is nothing to remove. -/
def unlink (path : Bytes) : Disk := d.setEntry path none

/-- `mkdir`, which fails when there is something of that name. -/
def mkdir (path : Bytes) : Disk :=
  if d.lstat path then d else { d with dir := Function.update d.dir path true }

/-- `symlink`, which fails when there is something at the new path. -/
def symlink (target path : Bytes) : Disk :=
  if d.lstat path then d else d.setEntry path (some (.link target))

/-- `rename` of a file or a link. -/
def rename (src dst : Bytes) : Disk := (d.setEntry dst (d.entry src)).setEntry src none

/-- The command `mv src dst`. It refuses to move a link onto the file it leads to. -/
def mv (src dst : Bytes) : Disk :=
  match d.entry src, d.entry dst with
  | none, _ => d
  | some (.link _), some (.file j) => if d.openIno src = some j then d else d.rename src dst
  | some _, _ => d.rename src dst

end Disk

/-- `is_symlink_ssd`. A failing `lstat` leaves the buffer it reads undefined; it stands for a file
that is no link. -/
def isSymlinkSsd (d : Disk) (fpath : Bytes) : Bool :=
  match d.entry fpath with
  | some (.link _) => d.access (getHddPath fpath)
  | _ => false

def moveFileSsd (d : Disk) (fpath : Bytes) : Disk :=
  (d.mv fpath (getHddPath fpath)).symlink (getHddPath fpath) fpath

def moveFileHdd (d : Disk) (fpath : Bytes) : Disk :=
  (d.unlink fpath).mv (getHddPath fpath) fpath

end FusionFS
