import FusionFS.Disk
import FusionFS.Namespace
import FusionFS.Lib.SecondChance

/-!
# File operations on a cluster

Any number of nodes with a local disk each, one metadata store, and file transfers between them. An
operation runs to its end on the node that issues it. `none` stands for an operation that fails in
a system call it cannot do without, or in `strstr` returning `NULL`.
-/

namespace FusionFS

open SecondChance

/-- The access mode bits of `open`'s flags. -/
inductive OpenMode where
  | rdonly
  | wronly
  | rdwr
  deriving DecidableEq

/-- An open file description, and the path FUSE hands back with it. -/
structure Handle where
  path : FilePath
  ino : Nat
  mode : OpenMode
  deriving DecidableEq

/-- The state of one node. The clock cache is the queue its ring reads as. -/
structure NodeState where
  disk : Disk
  queue : Queue Bytes
  fds : Nat → Option Handle
  nextFd : Nat

structure Cluster (Node : Type) where
  zht : Zht
  node : Node → NodeState

/-- The mount directory, which is the same on all nodes, and the addresses. -/
structure Net (Node : Type) where
  root : Root
  ip : Node → Bytes
  host : Bytes → Option Node
  ip_ne_nil : ∀ n, ip n ≠ []
  slash_notMem_ip : ∀ n, slash ∉ ip n
  host_iff : ∀ addr n, host addr = some n ↔ addr = ip n

variable {Node : Type} [DecidableEq Node]

namespace Cluster

variable (c : Cluster Node) (n : Node)

def setZht (z : Zht) : Cluster Node := { c with zht := z }

def setNode (s : NodeState) : Cluster Node := { c with node := Function.update c.node n s }

def disk : Disk := (c.node n).disk

def setDisk (d : Disk) : Cluster Node := c.setNode n { c.node n with disk := d }

def setQueue (q : Queue Bytes) : Cluster Node := c.setNode n { c.node n with queue := q }

def setHandle (fd : Nat) (h : Option Handle) : Cluster Node :=
  c.setNode n { c.node n with fds := Function.update (c.node n).fds fd h }

/-- A descriptor for an open file. Numbers are not used again. -/
def addHandle (h : Handle) : Nat × Cluster Node :=
  ((c.node n).nextFd, (c.setHandle n (c.node n).nextFd (some h)).setNode n
    { (c.setHandle n (c.node n).nextFd (some h)).node n with nextFd := (c.node n).nextFd + 1 })

end Cluster

variable (net : Net Node)

/-! ### Transfers -/

/-- `ffs_recvfile` from `addr`. Nothing is written when there is no such host or no such file. -/
def ffsRecvfile (n : Node) (addr remote dst : Bytes) (c : Cluster Node) : Cluster Node :=
  match net.host addr with
  | none => c
  | some m =>
      match (c.disk m).openIno remote with
      | none => c
      | some i => c.setDisk n ((c.disk n).store dst ((c.disk m).data i))

/-- `ffs_rmfile` on `addr`. The daemon unlinks the file; the cache of that node is not told. -/
def ffsRmfile (addr remote : Bytes) (c : Cluster Node) : Cluster Node :=
  match net.host addr with
  | none => c
  | some m => c.setDisk m ((c.disk m).unlink remote)

/-- The path under which the owner of a file keeps it, by the flag of its address. -/
def remotePath (fpath : Bytes) (hddFlag : Bool) : Bytes :=
  if hddFlag then getHddPath fpath else fpath

/-! ### Eviction -/

/-- The body of the eviction loop, once the victim is out of the queue. -/
def evictFile (n : Node) (fname : Bytes) (c : Cluster Node) : Cluster Node :=
  let c := c.setDisk n (moveFileSsd (c.disk n) fname)
  c.setZht (zhtUpdate c.zht fname (net.ip n ++ [slash]))

/-- `while (ssd_is_full() && clock_head != NULL)`. The list holds what `ssd_is_full` answers. -/
def evictLoop (n : Node) : List Bool → Cluster Node → Cluster Node
  | true :: full, c =>
      match remque (c.node n).queue with
      | some (fname, rest) => evictLoop n full (evictFile net n fname (c.setQueue n rest))
      | none => c
  | _, c => c

/-! ### The operations -/

def enoent : Int := -2

/-- What `fusion_getattr` finds behind `lstat`. -/
def statFile (d : Disk) (fpath : Bytes) : Int :=
  let retstat := if d.lstat fpath then 0 else enoent
  if isSymlinkSsd d fpath then if d.lstat (getHddPath fpath) then 0 else enoent else retstat

def fusionGetattr (n : Node) (junk path : Bytes) (c : Cluster Node) : Int × Cluster Node :=
  let fpath := net.root.fullpath path
  let c := match c.zht path with
    | none =>
        match c.zht (path ++ [slash]) with
        | none => c
        | some _ => c.setDisk n ((c.disk n).mkdir fpath)
    | some val =>
        let res := realIp junk val
        if (c.disk n).access fpath = false ∨ (path ≠ [slash] ∧ res.2 ≠ net.ip n) then
          ffsRecvfile net n res.2 (remotePath fpath res.1) fpath c
        else c
  (statFile (c.disk n) fpath, c)

def fusionCreate (n : Node) (full : List Bool) (path : FilePath) (c : Cluster Node) :
    Option (Nat × Cluster Node) := do
  let fpath := net.root.fullpath path.bytes
  let c := evictLoop net n full c
  let (ino, d) ← (c.disk n).creat fpath
  let (fd, c) := (c.setDisk n d).addHandle n ⟨path, ino, .wronly⟩
  let c := c.setQueue n (insque fpath (c.node n).queue)
  some (fd, c.setZht (createEntry c.zht path.bytes (net.ip n)))

/-- `fusion_open` from the call of `open` on. -/
def openCached (n : Node) (path : FilePath) (mode : OpenMode) (c : Cluster Node) :
    Option (Nat × Cluster Node) := do
  let fpath := net.root.fullpath path.bytes
  let ino ← (c.disk n).openIno fpath
  let (fd, c) := c.addHandle n ⟨path, ino, mode⟩
  some (fd, c.setQueue n (insque fpath (c.node n).queue))

def fusionOpen (n : Node) (full : List Bool) (path : FilePath) (mode : OpenMode)
    (c : Cluster Node) : Option (Nat × Cluster Node) :=
  let fpath := net.root.fullpath path.bytes
  if isSymlinkSsd (c.disk n) fpath then
    let c := evictLoop net n full c
    openCached net n path mode (c.setDisk n (moveFileHdd (c.disk n) fpath))
  else openCached net n path mode c

def fusionRead (n : Node) (fd off size : Nat) (c : Cluster Node) : Option Bytes := do
  let h ← (c.node n).fds fd
  if h.mode = .wronly then none
  else some ((((c.disk n).data h.ino).drop off).take size)

/-- `pwrite` on the contents of a file: a gap in front of the data reads as zeros. -/
def pwrite (content : Bytes) (off : Nat) (buf : Bytes) : Bytes :=
  content.take off ++ List.replicate (off - content.length) 0 ++ buf ++
    content.drop (off + buf.length)

/-- `truncate` on the contents of a file. -/
def resize (content : Bytes) (size : Nat) : Bytes :=
  content.take size ++ List.replicate (size - content.length) 0

def fusionWrite (n : Node) (fd off : Nat) (buf : Bytes) (c : Cluster Node) :
    Option (Cluster Node) := do
  let h ← (c.node n).fds fd
  if h.mode = .rdonly then none
  else
    let d := c.disk n
    some (c.setDisk n (d.setData h.ino (pwrite (d.data h.ino) off buf)))

def fusionTruncate (n : Node) (path : FilePath) (size : Nat) (c : Cluster Node) :
    Option (Cluster Node) := do
  let d := c.disk n
  let fpath := net.root.fullpath path.bytes
  let fpath := if isSymlinkSsd d fpath then getHddPath fpath else fpath
  let ino ← d.openIno fpath
  some (c.setDisk n (d.setData ino (resize (d.data ino) size)))

/-- The branch of `fusion_release` for a written file that another node owns. -/
def publish (n : Node) (full : List Bool) (path : Bytes) (nodeaddr : Bool × Bytes)
    (c : Cluster Node) : Cluster Node :=
  let c := c.setZht (zhtUpdate c.zht path (net.ip n))
  let c := ffsRmfile net nodeaddr.2 (remotePath (net.root.fullpath path) nodeaddr.1) c
  evictLoop net n full c

/-- The branch of `fusion_release` for a file that was only read. -/
def dropCopy (n : Node) (path : Bytes) (c : Cluster Node) : Cluster Node :=
  let fpath := net.root.fullpath path
  let c := c.setDisk n ((c.disk n).unlink fpath)
  c.setQueue n (rmelem fpath (c.node n).queue)

def fusionRelease (n : Node) (full : List Bool) (junk : Bytes) (fd : Nat) (c : Cluster Node) :
    Option (Cluster Node) := do
  let h ← (c.node n).fds fd
  let c := c.setHandle n fd none
  let nodeaddr := realIp junk (zhtValue c.zht h.path.bytes)
  if net.ip n = nodeaddr.2 then some c
  else if h.mode ≠ .rdonly then some (publish net n full h.path.bytes nodeaddr c)
  else some (dropCopy net n h.path.bytes c)

/-- `fusion_unlink`, with what it returns. -/
def fusionUnlink (n : Node) (junk : Bytes) (path : FilePath) (c : Cluster Node) :
    Option (Int × Cluster Node) :=
  let fpath := net.root.fullpath path.bytes
  match c.zht path.bytes with
  | none => some (-1, c)
  | some _ => do
      let c := if isSymlinkSsd (c.disk n) fpath
        then c.setDisk n ((c.disk n).unlink (getHddPath fpath)) else c
      let c := c.setQueue n (rmelem fpath (c.node n).queue)
      let z ← zhtDelete c.zht path.dirname path.fname
      let oldaddr := realIp junk (zhtValue z path.bytes)
      let c := c.setZht (zhtRemove z path.bytes)
      let c := if net.ip n = oldaddr.2 then c
        else ffsRmfile net oldaddr.2 (remotePath fpath oldaddr.1) c
      let retstat := if ((c.disk n).entry fpath).isSome then 0 else enoent
      some (retstat, c.setDisk n ((c.disk n).unlink fpath))

/-! ### Steps -/

/-- An operation, the node that issues it, and what its environment supplies: the answers of
`ssd_is_full` and the bytes `real_ip` finds in its buffer. -/
inductive Op (Node : Type) where
  | create (n : Node) (full : List Bool) (path : FilePath)
  | getattr (n : Node) (junk path : Bytes)
  | open (n : Node) (full : List Bool) (path : FilePath) (mode : OpenMode)
  | read (n : Node) (fd off size : Nat)
  | write (n : Node) (fd off : Nat) (buf : Bytes)
  | truncate (n : Node) (path : FilePath) (size : Nat)
  | release (n : Node) (full : List Bool) (junk : Bytes) (fd : Nat)
  | unlink (n : Node) (junk : Bytes) (path : FilePath)

def step (c : Cluster Node) : Op Node → Option (Cluster Node)
  | .create n full path => (fusionCreate net n full path c).map Prod.snd
  | .getattr n junk path => some (fusionGetattr net n junk path c).2
  | .open n full path mode => (fusionOpen net n full path mode c).map Prod.snd
  | .read n fd off size => (fusionRead n fd off size c).map fun _ => c
  | .write n fd off buf => fusionWrite n fd off buf c
  | .truncate n path size => fusionTruncate net n path size c
  | .release n full junk fd => fusionRelease net n full junk fd c
  | .unlink n junk path => (fusionUnlink net n junk path c).map Prod.snd

/-- What the nodes and the store start from: directories, and no file anywhere. -/
structure Initial (c : Cluster Node) : Prop where
  zht : ∀ key, (c.zht key).isSome → key.getLast? = some slash
  entry : ∀ n path, (c.disk n).entry path = none
  queue : ∀ n, (c.node n).queue = []
  fds : ∀ n fd, (c.node n).fds fd = none

/-- The state after `main`, with nothing in the file system. -/
def freshCluster : Cluster Node :=
  ⟨zhtInit, fun _ => ⟨⟨fun _ => none, fun _ => false, fun _ => [], 0⟩, [], fun _ => none, 0⟩⟩

omit [DecidableEq Node] in
theorem freshCluster_initial : Initial (freshCluster : Cluster Node) where
  zht := by
    intro key hkey
    by_cases hroot : key = [slash]
    · rw [hroot]
      rfl
    · change (zhtInit key).isSome = true at hkey
      rw [zhtInit, zhtInsert_of_ne hroot] at hkey
      cases hkey
  entry := fun _ _ => rfl
  queue := fun _ => rfl
  fds := fun _ _ => rfl

/-- Two nodes with addresses of which neither is a prefix of the other. -/
def twoNodes : Net Bool where
  root := ⟨cstr "/mnt", by decide⟩
  ip n := if n then cstr "10.0.0.2" else cstr "10.0.0.1"
  host addr :=
    if addr = cstr "10.0.0.1" then some false
    else if addr = cstr "10.0.0.2" then some true else none
  ip_ne_nil := by decide
  slash_notMem_ip := by decide
  host_iff := by
    intro addr n
    by_cases h₁ : addr = cstr "10.0.0.1"
    · subst h₁
      revert n
      decide
    · by_cases h₂ : addr = cstr "10.0.0.2"
      · subst h₂
        revert n
        decide
      · cases n <;> simp [h₁, h₂]

end FusionFS
