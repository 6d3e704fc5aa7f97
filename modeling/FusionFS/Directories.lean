import FusionFS.Copying
import Mathlib.Data.List.Infix

/-!
# Directories that are missing

A node has the directories that it made itself: `fusion_getattr` and a transfer make those of a path
on its SSD, and none on its HDD. A call that needs one it does not have fails, `creat` and `open` as
well, and the operation goes on without it. Between the two devices `mv` copies.

No link leads to a directory here, and `mv` moves files and links; transfers run to their end.
-/

namespace FusionFS

open SecondChance

namespace Directories

/-! ### System calls -/

/-- The directory that a path lies in. -/
def parentOf (path : Bytes) : Bytes := (dirOf path).dropLast

/-- The paths that `mkdir -p` goes through, the topmost first. -/
def ancestors (path : Bytes) : List Bytes :=
  path.inits.filter fun x => x ≠ [] ∧ (path.drop x.length).head?.all (· == slash)

/-- `mkdir -p`, which stops at something that is no directory. -/
def mkdirAll : List Bytes → Disk → Disk
  | [], d => d
  | path :: paths, d =>
      if d.dir path then mkdirAll paths d
      else if (d.entry path).isSome then d
      else mkdirAll paths { d with dir := Function.update d.dir path true }

def creat (d : Disk) (path : Bytes) : Option (Nat × Disk) := do
  let real ← d.resolve maxSymlinks path
  if d.dir (parentOf real) then d.creat path else none

/-- Write a whole file through an output stream. -/
def store (d : Disk) (path content : Bytes) : Disk :=
  match creat d path with
  | some (i, d') => d'.setData i content
  | none => d

def symlink (d : Disk) (target path : Bytes) : Disk :=
  if d.dir (parentOf path) then d.symlink target path else d

/-- `mv src dst`, which moves into a directory of the name `dst`. -/
def mv (d : Disk) (src dst : Bytes) : Disk :=
  let dst := if d.dir dst then dst ++ [slash] ++ baseOf src else dst
  if d.dir dst = false ∧ d.dir (parentOf dst) = true then Copying.mv d src dst else d

def moveFileSsd (d : Disk) (fpath : Bytes) : Disk :=
  symlink (mv d fpath (getHddPath fpath)) (getHddPath fpath) fpath

def moveFileHdd (d : Disk) (fpath : Bytes) : Disk := mv (d.unlink fpath) (getHddPath fpath) fpath

/-! ### The operations -/

variable {Node : Type} [DecidableEq Node] (net : Net Node)

/-- `ffs_recvfile` from `addr`. -/
def ffsRecvfile (n : Node) (addr remote dst : Bytes) (c : Cluster Node) : Cluster Node :=
  match net.host addr with
  | none => c
  | some m =>
      match (c.disk m).openIno remote with
      | none => c
      | some i =>
          let pathname := parentOf dst
          let d := if (c.disk n).access pathname then c.disk n
            else mkdirAll (ancestors pathname) (c.disk n)
          c.setDisk n (store d dst ((c.disk m).data i))

/-- The body of the eviction loop, once the victim is out of the queue. -/
def evictFile (n : Node) (fname : Bytes) (c : Cluster Node) : Cluster Node :=
  let c := c.setDisk n (moveFileSsd (c.disk n) fname)
  c.setZht (zhtUpdate c.zht fname (net.ip n ++ [slash]))

/-- `while (ssd_is_full() && clock_head != NULL)`. The list holds what `ssd_is_full` answers. -/
def evictLoop (n : Node) : List Bool → Cluster Node → Cluster Node
  | true :: full, c =>
      match remque (c.node n).queue with
      | some (fname, rest) => evictLoop n full (evictFile net n fname (c.setQueue n rest))
      | none => c
  | _, c => c

def fusionGetattr (n : Node) (junk path : Bytes) (c : Cluster Node) : Int × Cluster Node :=
  let fpath := net.root.fullpath path
  let c := match c.zht path with
    | none =>
        match c.zht (path ++ [slash]) with
        | none => c
        | some _ => c.setDisk n (mkdirAll (ancestors fpath) (c.disk n))
    | some val =>
        let res := realIp junk val
        if (c.disk n).access fpath = false ∨ (path ≠ [slash] ∧ res.2 ≠ net.ip n) then
          ffsRecvfile net n res.2 (remotePath fpath res.1) fpath c
        else c
  (statFile (c.disk n) fpath, c)

/-- What follows `creat` and `open`: the descriptor, if the call has given one, and the place in the
queue. -/
def enqueue (n : Node) (path : FilePath) (mode : OpenMode) (ino : Option Nat) (c : Cluster Node) :
    Option Nat × Cluster Node :=
  let fpath := net.root.fullpath path.bytes
  match ino with
  | some ino =>
      let (fd, c) := c.addHandle n ⟨path, ino, mode⟩
      (some fd, c.setQueue n (insque fpath (c.node n).queue))
  | none => (none, c.setQueue n (insque fpath (c.node n).queue))

/-- `fusion_create`, with the descriptor if there is one. -/
def fusionCreate (n : Node) (full : List Bool) (path : FilePath) (c : Cluster Node) :
    Option Nat × Cluster Node :=
  let c := evictLoop net n full c
  let (fd, c) := match creat (c.disk n) (net.root.fullpath path.bytes) with
    | some (ino, d) => enqueue net n path .wronly (some ino) (c.setDisk n d)
    | none => enqueue net n path .wronly none c
  (fd, c.setZht (createEntry c.zht path.bytes (net.ip n)))

/-- `fusion_open` up to the call of `open`. -/
def prepareOpen (n : Node) (full : List Bool) (path : FilePath) (c : Cluster Node) : Cluster Node :=
  let fpath := net.root.fullpath path.bytes
  if isSymlinkSsd (c.disk n) fpath then
    let c := evictLoop net n full c
    c.setDisk n (moveFileHdd (c.disk n) fpath)
  else c

/-- `fusion_open`, with the descriptor if there is one. -/
def fusionOpen (n : Node) (full : List Bool) (path : FilePath) (mode : OpenMode)
    (c : Cluster Node) : Option Nat × Cluster Node :=
  let c := prepareOpen net n full path c
  enqueue net n path mode ((c.disk n).openIno (net.root.fullpath path.bytes)) c

/-- The branch of `fusion_release` for a written file that another node owns. -/
def publish (n : Node) (full : List Bool) (path : Bytes) (nodeaddr : Bool × Bytes)
    (c : Cluster Node) : Cluster Node :=
  let c := c.setZht (zhtUpdate c.zht path (net.ip n))
  let c := ffsRmfile net nodeaddr.2 (remotePath (net.root.fullpath path) nodeaddr.1) c
  evictLoop net n full c

def fusionRelease (n : Node) (full : List Bool) (junk : Bytes) (fd : Nat) (c : Cluster Node) :
    Option (Cluster Node) := do
  let h ← (c.node n).fds fd
  let c := c.setHandle n fd none
  let nodeaddr := realIp junk (zhtValue c.zht h.path.bytes)
  if net.ip n = nodeaddr.2 then some c
  else if h.mode ≠ .rdonly then some (publish net n full h.path.bytes nodeaddr c)
  else some (dropCopy net n h.path.bytes c)

/-- A step. Removing a file, and what goes through an open file, needs no directory. -/
def step (c : Cluster Node) : Op Node → Option (Cluster Node)
  | .create n full path => some (fusionCreate net n full path c).2
  | .getattr n junk path => some (fusionGetattr net n junk path c).2
  | .open n full path mode => some (fusionOpen net n full path mode c).2
  | .read n fd off size => (fusionRead n fd off size c).map fun _ => c
  | .write n fd off buf => fusionWrite n fd off buf c
  | .truncate n path size => fusionTruncate net n path size c
  | .release n full junk fd => fusionRelease net n full junk fd c
  | .unlink n junk path => (fusionUnlink net n junk path c).map Prod.snd

/-- Nodes with the two directories that the file system is mounted over. -/
def mountedCluster : Cluster Node where
  zht := zhtInit
  node _ := {
    disk := ⟨fun _ => none, fun x => x = net.root.ssd ∨ x = net.root.hddRoot, fun _ => [], 0⟩
    queue := []
    fds := fun _ => none
    nextFd := 0 }

omit [DecidableEq Node] in
theorem mountedCluster_initial : Initial (mountedCluster net) where
  zht :=
    have hfresh : Initial (freshCluster : Cluster Node) := freshCluster_initial
    hfresh.zht
  entry := fun _ _ => rfl
  queue := fun _ => rfl
  fds := fun _ _ => rfl

/-! ### What the disks keep -/

/-- An entry that can be at a path: it is in a directory, a link leads from the SSD to the HDD and to
no directory. -/
structure Fits (r : Root) (dir : Bytes → Bool) (x : Bytes) (e : DirEntry) : Prop where
  nodir : dir x = false
  home : ∀ p, x = r.fullpath p → dir (parentOf x) = true
  link : ∀ p t, x = r.fullpath p → e = .link t → t = r.hddpath p ∧ dir t = false
  plain : ∀ p t, x = r.hddpath p → e ≠ .link t

def Tidy (r : Root) (d : Disk) : Prop := ∀ x e, d.entry x = some e → Fits r d.dir x e

variable {r : Root} {d d' : Disk} {p x : Bytes} {i : Nat}

theorem Fits.file_ssd {dir : Bytes → Bool} (hdir : dir (r.fullpath p) = false)
    (hhome : dir (parentOf (r.fullpath p)) = true) : Fits r dir (r.fullpath p) (.file i) where
  nodir := hdir
  home _ _ := hhome
  link _ _ _ heq := by cases heq
  plain q _ heq := absurd heq (r.fullpath_ne_hddpath p q)

theorem Fits.file_hdd {dir : Bytes → Bool} (hdir : dir (r.hddpath p) = false) :
    Fits r dir (r.hddpath p) (.file i) where
  nodir := hdir
  home q heq := absurd heq.symm (r.fullpath_ne_hddpath q p)
  link _ _ _ heq := by cases heq
  plain _ _ _ heq := by cases heq

theorem Fits.link_ssd {dir : Bytes → Bool} (hdir : dir (r.fullpath p) = false)
    (hhome : dir (parentOf (r.fullpath p)) = true) (hhdd : dir (r.hddpath p) = false) :
    Fits r dir (r.fullpath p) (.link (r.hddpath p)) where
  nodir := hdir
  home _ _ := hhome
  link q t heq ht := by
    cases ht
    rw [r.fullpath_inj.mp heq] at hhdd ⊢
    exact ⟨rfl, hhdd⟩
  plain q _ heq := absurd heq (r.fullpath_ne_hddpath p q)

theorem Tidy.update (h : Tidy r d) {e : Option DirEntry}
    (hentry : d'.entry = Function.update d.entry x e) (hdir : d'.dir = d.dir)
    (he : ∀ e', e = some e' → Fits r d.dir x e') : Tidy r d' := by
  intro y e' hy
  rw [hentry] at hy
  rw [hdir]
  by_cases hyx : y = x
  · subst hyx
    rw [Function.update_self] at hy
    exact he e' hy
  · rw [Function.update_of_ne hyx] at hy
    exact h y e' hy

theorem Tidy.congr (h : Tidy r d) (hentry : d'.entry = d.entry) (hdir : d'.dir = d.dir) :
    Tidy r d' := by
  intro x e he
  rw [hentry] at he
  rw [hdir]
  exact h x e he

theorem Tidy.unlink (h : Tidy r d) (x : Bytes) : Tidy r (d.unlink x) :=
  h.update rfl rfl fun _ he => absurd he.symm (Option.some_ne_none _)

theorem Tidy.newFile (h : Tidy r d) (hfits : Fits r d.dir x (.file d.nextIno)) :
    Tidy r (d.newFile x) := by
  have hnew : (d.newFile x).entry = Function.update d.entry x (some (.file d.nextIno)) := rfl
  apply h.update hnew rfl
  rintro e ⟨⟩
  exact hfits

theorem Tidy.nodir (h : Tidy r d) {e : DirEntry} (he : d.entry x = some e) : d.dir x = false :=
  (h x e he).nodir

theorem Tidy.ssd_link (h : Tidy r d) {t : Bytes} (ht : d.entry (r.fullpath p) = some (.link t)) :
    t = r.hddpath p ∧ d.dir (r.hddpath p) = false := by
  obtain ⟨rfl, hdir⟩ := (h _ _ ht).link p t rfl rfl
  exact ⟨rfl, hdir⟩

theorem Tidy.hdd_file (h : Tidy r d) {e : DirEntry} (he : d.entry (r.hddpath p) = some e) :
    ∃ i, e = .file i := by
  cases e with
  | file i => exact ⟨i, rfl⟩
  | link t => exact absurd rfl ((h _ _ he).plain p t rfl)

/-! ### What the calls do -/

theorem mkdirAll_entry (paths : List Bytes) (d : Disk) : (mkdirAll paths d).entry = d.entry := by
  fun_induction mkdirAll paths d with
  | case1 => rfl
  | case2 _ _ _ _ ih => exact ih
  | case3 => rfl
  | case4 _ _ _ _ _ ih => exact ih

/-- New directories are where nothing was. -/
theorem mkdirAll_dir (paths : List Bytes) (d : Disk) (x : Bytes) :
    (d.dir x = true → (mkdirAll paths d).dir x = true) ∧
      ((mkdirAll paths d).dir x = true → d.dir x = true ∨ x ∈ paths ∧ d.entry x = none) := by
  fun_induction mkdirAll paths d with
  | case1 d => exact ⟨id, .inl⟩
  | case2 path paths d _ ih =>
      exact ⟨ih.1, fun h => (ih.2 h).imp_right (And.imp_left (List.mem_cons_of_mem _))⟩
  | case3 d => exact ⟨id, .inl⟩
  | case4 path paths d _ hentry ih =>
      by_cases hx : x = path
      · subst hx
        simp only [Function.update_self] at ih
        exact ⟨fun _ => ih.1 trivial, fun _ => .inr ⟨List.mem_cons_self, by simpa using hentry⟩⟩
      · simp only [Function.update_of_ne hx] at ih
        exact ⟨ih.1, fun h => (ih.2 h).imp_right (And.imp_left (List.mem_cons_of_mem _))⟩

theorem prefix_of_mem_ancestors {path : Bytes} (h : x ∈ ancestors path) : x <+: path :=
  (List.mem_inits x path).mp (List.mem_filter.mp h).1

theorem parentOf_isPrefix (path : Bytes) : parentOf path <+: path :=
  (List.dropLast_prefix _).trans ⟨baseOf path, dirOf_append_baseOf path⟩

/-- What lies on the way to an SSD path is not on the HDD. -/
theorem ne_hddpath_of_prefix (h : x <+: r.fullpath p) (q : Bytes) : x ≠ r.hddpath q := by
  rintro rfl
  have hhdd : r.hddRoot <+: r.fullpath p := (List.prefix_append _ _).trans h
  have hssd : r.ssd <+: r.fullpath p := List.prefix_append _ _
  have hboth := List.prefix_of_prefix_length_le hhdd hssd r.length_hddRoot.le
  exact r.hddRoot_ne_ssd (hboth.eq_of_length r.length_hddRoot)

theorem Tidy.mkdirAll (h : Tidy r d) {path : Bytes} (hpath : path <+: r.fullpath p) :
    Tidy r (mkdirAll (ancestors path) d) := by
  intro x e he
  rw [mkdirAll_entry] at he
  have hfits := h x e he
  have hkept : ∀ y, (d.entry y ≠ none ∨ ∃ q, y = r.hddpath q) → d.dir y = false →
      (Directories.mkdirAll (ancestors path) d).dir y = false := by
    intro y hy hno
    rw [← Bool.not_eq_true] at hno ⊢
    intro hyes
    rcases (mkdirAll_dir _ _ y).2 hyes with hold | ⟨hmem, hnone⟩
    · exact hno hold
    · rcases hy with hsome | ⟨q, rfl⟩
      · exact hsome hnone
      · exact ne_hddpath_of_prefix ((prefix_of_mem_ancestors hmem).trans hpath) q rfl
  constructor
  · apply hkept x _ hfits.nodir
    rw [he]
    exact .inl (Option.some_ne_none e)
  · exact fun q hq => (mkdirAll_dir _ _ _).1 (hfits.home q hq)
  · intro q t hq ht
    obtain ⟨rfl, hdir⟩ := hfits.link q t hq ht
    exact ⟨rfl, hkept _ (.inr ⟨q, rfl⟩) hdir⟩
  · exact hfits.plain

/-- There is a file at an SSD path, or room for one. -/
def CanHold (d : Disk) (fpath : Bytes) : Prop :=
  (∃ i, d.entry fpath = some (.file i)) ∨
    d.entry fpath = none ∧ d.dir fpath = false ∧ d.dir (parentOf fpath) = true

/-- The disk after `creat`, whether it fails or not. -/
def afterCreat (d : Disk) (path : Bytes) : Disk := ((creat d path).map Prod.snd).getD d

/-- A disk on which a file has been created or written. -/
structure Added (r : Root) (d d' : Disk) (p : Bytes) : Prop where
  tidy : Tidy r d'
  dir : d'.dir = d.dir
  elsewhere : ∀ q, q ≠ p → d'.entry (r.fullpath q) = d.entry (r.fullpath q)
  file : (∃ i, d'.entry (r.fullpath p) = some (.file i)) ↔ CanHold d (r.fullpath p)

theorem Tidy.resolve_hddpath (h : Tidy r d) (p : Bytes) (fuel : Nat) :
    d.resolve (fuel + 1) (r.hddpath p) = some (r.hddpath p) := by
  rw [Disk.resolve]
  cases he : d.entry (r.hddpath p) with
  | none => rfl
  | some e =>
      obtain ⟨i, rfl⟩ := h.hdd_file he
      rfl

theorem Tidy.resolve_of_link (h : Tidy r d) {t : Bytes}
    (ht : d.entry (r.fullpath p) = some (.link t)) :
    d.resolve maxSymlinks (r.fullpath p) = some (r.hddpath p) := by
  obtain ⟨rfl, -⟩ := h.ssd_link ht
  rw [show maxSymlinks = 38 + 1 + 1 from rfl, Disk.resolve, ht]
  exact h.resolve_hddpath p 38

theorem resolve_of_no_link (hno : ∀ t, d.entry x ≠ some (.link t)) :
    d.resolve maxSymlinks x = some x := by
  rw [show maxSymlinks = 39 + 1 from rfl, Disk.resolve]
  cases he : d.entry x with
  | none => rfl
  | some e =>
      cases e with
      | file i => rfl
      | link t => exact absurd he (hno t)

/-- `creat` at a path that no link ends: it finds the file, makes one, or fails. -/
theorem creat_of_resolve {real : Bytes} (hreal : d.resolve maxSymlinks x = some real)
    (hlink : ∀ t, d.entry real ≠ some (.link t)) :
    (afterCreat d x).dir = d.dir ∧
      ((afterCreat d x).entry = d.entry ∧
          (d.entry real = none → d.dir real = true ∨ d.dir (parentOf real) = false) ∨
        d.entry real = none ∧ d.dir real = false ∧ d.dir (parentOf real) = true ∧
          (afterCreat d x).entry = Function.update d.entry real (some (.file d.nextIno))) := by
  unfold afterCreat creat Disk.creat
  simp only [Option.bind_eq_bind, hreal, Option.bind_some]
  cases hparent : d.dir (parentOf real) with
  | false => simp
  | true =>
      cases he : d.entry real with
      | some e =>
          cases e with
          | file i => simp [Disk.setData]
          | link t => exact absurd he (hlink t)
      | none =>
          cases hdir : d.dir real with
          | true => simp
          | false => simp [Disk.newFile, Disk.setEntry, Disk.setData]

theorem Tidy.afterCreat (h : Tidy r d) (p : Bytes) :
    Added r d (afterCreat d (r.fullpath p)) p := by
  by_cases hlink : ∃ t, d.entry (r.fullpath p) = some (.link t)
  · obtain ⟨t, ht⟩ := hlink
    obtain ⟨-, hnodir⟩ := h.ssd_link ht
    have hno : ∀ t, d.entry (r.hddpath p) ≠ some (.link t) := by
      intro t hhdd
      obtain ⟨i, hi⟩ := h.hdd_file hhdd
      cases hi
    obtain ⟨hdir, hcase⟩ := creat_of_resolve (h.resolve_of_link ht) hno
    have hssd : ∀ q, (Directories.afterCreat d (r.fullpath p)).entry (r.fullpath q)
        = d.entry (r.fullpath q) := by
      intro q
      rcases hcase with ⟨heq, -⟩ | ⟨-, -, -, heq⟩
      · rw [heq]
      · rw [heq, Function.update_of_ne (r.fullpath_ne_hddpath q p)]
    refine ⟨?_, hdir, fun q _ => hssd q, ?_⟩
    · rcases hcase with ⟨heq, -⟩ | ⟨-, -, -, heq⟩
      · exact h.congr heq hdir
      · apply h.update heq hdir
        rintro e ⟨⟩
        exact Fits.file_hdd hnodir
    · rw [hssd]
      unfold CanHold
      simp [ht]
  · have hno : ∀ t, d.entry (r.fullpath p) ≠ some (.link t) := fun t ht => hlink ⟨t, ht⟩
    obtain ⟨hdir, hcase⟩ := creat_of_resolve (resolve_of_no_link hno) hno
    rcases hcase with ⟨heq, hfull⟩ | ⟨hnone, hnodir, hparent, heq⟩
    · refine ⟨h.congr heq hdir, hdir, fun q _ => by rw [heq], ?_⟩
      rw [heq]
      constructor
      · exact .inl
      · rintro (hfile | ⟨hnone, hnodir, hparent⟩)
        · exact hfile
        · rcases hfull hnone with hd | hp
          · exact absurd (hd.symm.trans hnodir) (by decide)
          · exact absurd (hp.symm.trans hparent) (by decide)
    · refine ⟨?_, hdir, fun q hq => ?_, ?_⟩
      · apply h.update heq hdir
        rintro e ⟨⟩
        exact Fits.file_ssd hnodir hparent
      · rw [heq, Function.update_of_ne fun hf => hq (r.fullpath_inj.mp hf)]
      · rw [heq, Function.update_self]
        exact iff_of_true ⟨_, rfl⟩ (.inr ⟨hnone, hnodir, hparent⟩)

theorem Tidy.store (h : Tidy r d) (p content : Bytes) :
    Added r d (store d (r.fullpath p) content) p := by
  have hadded := h.afterCreat p
  unfold Directories.afterCreat at hadded
  unfold Directories.store
  cases hc : creat d (r.fullpath p) with
  | none =>
      rw [hc] at hadded
      exact hadded
  | some res =>
      rw [hc] at hadded
      exact ⟨hadded.tidy, hadded.dir, hadded.elsewhere, hadded.file⟩

/-- `is_symlink_ssd` finds a link to a file. -/
theorem Tidy.isSymlinkSsd_iff (h : Tidy r d) : isSymlinkSsd d (r.fullpath p) = true ↔
    (∃ t, d.entry (r.fullpath p) = some (.link t)) ∧ ∃ i, d.entry (r.hddpath p) = some (.file i) := by
  unfold isSymlinkSsd
  cases he : d.entry (r.fullpath p) with
  | none => simp
  | some e =>
      cases e with
      | file i => simp
      | link t =>
          obtain ⟨-, hdir⟩ := h.ssd_link he
          rw [r.getHddPath_fullpath]
          cases hhdd : d.entry (r.hddpath p) with
          | none => simp [Disk.access, maxSymlinks, Disk.resolve, hhdd, hdir]
          | some e =>
              obtain ⟨i, rfl⟩ := h.hdd_file hhdd
              simp [Disk.access, maxSymlinks, Disk.resolve, hhdd]

/-! ### Moves -/

/-- The HDD has a place for the file. -/
def Ready (d : Disk) (fname : Bytes) : Prop :=
  d.dir (parentOf (getHddPath fname)) = true ∧ d.dir (getHddPath fname) = false

instance (d : Disk) (fname : Bytes) : Decidable (Ready d fname) := inferInstanceAs (Decidable (_ ∧ _))

/-- A regular file on the SSD is moved to the HDD, and a link leads to it. -/
def MovesFile (d : Disk) (fname : Bytes) : Prop :=
  ∃ i j, d.entry fname = some (.file i) ∧
    (moveFileSsd d fname).entry fname = some (.link (getHddPath fname)) ∧
    (moveFileSsd d fname).entry (getHddPath fname) = some (.file j) ∧
    (moveFileSsd d fname).data j = d.data i

theorem Tidy.moveFileSsd (h : Tidy r d) (hi : d.entry (r.fullpath p) = some (.file i))
    (hready : Ready d (r.fullpath p)) :
    MovesFile d (r.fullpath p) ∧ Tidy r (moveFileSsd d (r.fullpath p)) ∧
      (moveFileSsd d (r.fullpath p)).dir = d.dir ∧
      ∀ q, q ≠ p → (moveFileSsd d (r.fullpath p)).entry (r.fullpath q) = d.entry (r.fullpath q) ∧
        (moveFileSsd d (r.fullpath p)).entry (r.hddpath q) = d.entry (r.hddpath q) := by
  obtain ⟨hparent, hnodir⟩ := hready
  have hfits := h _ _ hi
  have hhome := hfits.home p rfl
  have hne := r.fullpath_ne_hddpath
  rw [r.getHddPath_fullpath] at hparent hnodir
  have hmv : mv d (r.fullpath p) (r.hddpath p)
      = ((d.newFile (r.hddpath p)).setData d.nextIno (d.data i)).unlink (r.fullpath p) := by
    unfold mv
    simp only [hnodir, if_false, hparent, Bool.false_eq_true, and_self, if_true]
    exact Copying.mv_file hi
  have hmoved : Directories.moveFileSsd d (r.fullpath p)
      = (((d.newFile (r.hddpath p)).setData d.nextIno (d.data i)).unlink (r.fullpath p)).setEntry
          (r.fullpath p) (some (.link (r.hddpath p))) := by
    unfold Directories.moveFileSsd symlink
    rw [r.getHddPath_fullpath, hmv]
    simp [Disk.symlink, Disk.lstat, Disk.unlink, Disk.setEntry, Disk.setData, Disk.newFile, hhome,
      hfits.nodir]
  have hentry : (Directories.moveFileSsd d (r.fullpath p)).entry = Function.update
      (Function.update d.entry (r.hddpath p) (some (.file d.nextIno)))
      (r.fullpath p) (some (.link (r.hddpath p))) := by
    rw [hmoved]
    exact Function.update_idem ..
  have hdir : (Directories.moveFileSsd d (r.fullpath p)).dir = d.dir := by
    rw [hmoved]
    rfl
  refine ⟨⟨i, d.nextIno, hi, ?_, ?_, ?_⟩, ?_, hdir, fun q hq => ⟨?_, ?_⟩⟩
  · rw [hentry, Function.update_self, r.getHddPath_fullpath]
  · rw [hentry, r.getHddPath_fullpath, Function.update_of_ne (hne p p).symm, Function.update_self]
  · rw [hmoved]
    exact Function.update_self ..
  · apply (h.newFile (Fits.file_hdd hnodir)).update hentry hdir
    rintro e ⟨⟩
    exact Fits.link_ssd hfits.nodir hhome hnodir
  · rw [hentry, Function.update_of_ne fun hf => hq (r.fullpath_inj.mp hf),
      Function.update_of_ne (hne q p)]
  · rw [hentry, Function.update_of_ne (hne p q).symm,
      Function.update_of_ne fun hf => hq (r.hddpath_inj.mp hf)]

theorem entry_symlink_of_ne {t path : Bytes} (hx : x ≠ path) :
    (symlink d t path).entry x = d.entry x := by
  unfold symlink Disk.symlink
  split
  · split
    · rfl
    · exact Function.update_of_ne hx ..
  · rfl

theorem entry_mv_of_ne {src dst : Bytes}
    (hdst : x ≠ if d.dir dst then dst ++ [slash] ++ baseOf src else dst) (hsrc : x ≠ src)
    (hi : d.entry src = some (.file i)) : (mv d src dst).entry x = d.entry x := by
  unfold mv
  dsimp only
  generalize (if d.dir dst then dst ++ [slash] ++ baseOf src else dst) = target at hdst ⊢
  split
  · rw [Copying.mv_file hi]
    simp [Disk.unlink, Disk.setEntry, Disk.setData, Disk.newFile, hdst, hsrc]
  · rfl

/-- Without a place on the HDD the file stays, or goes elsewhere. -/
theorem Tidy.ready_of_movesFile (h : Tidy r d) (hmoves : MovesFile d (r.fullpath p)) :
    Ready d (r.fullpath p) := by
  obtain ⟨i, j, hi, hlink, hfile, -⟩ := hmoves
  unfold Ready
  unfold Directories.moveFileSsd at hlink hfile
  rw [r.getHddPath_fullpath] at hlink hfile ⊢
  cases hdir : d.dir (r.hddpath p) with
  | true =>
      -- the file is moved into the directory, and the path stays that of the directory
      have hlonger : r.hddpath p ≠ r.hddpath p ++ [slash] ++ baseOf (r.fullpath p) := by
        intro heq
        simpa using congrArg List.length heq
      rw [entry_symlink_of_ne (r.fullpath_ne_hddpath p p).symm,
        entry_mv_of_ne (by rw [hdir]; exact hlonger) (r.fullpath_ne_hddpath p p).symm hi] at hfile
      exact absurd ((h.nodir hfile).symm.trans hdir) (by decide)
  | false =>
      refine ⟨?_, rfl⟩
      by_contra hparent
      have hmv : mv d (r.fullpath p) (r.hddpath p) = d := by simp [mv, hdir, hparent]
      rw [hmv] at hlink
      unfold symlink at hlink
      split at hlink
      · simp [Disk.symlink, Disk.lstat, hi] at hlink
      · rw [hi] at hlink
        cases hlink

theorem Tidy.moveFileHdd (h : Tidy r d) {t : Bytes} (hlink : d.entry (r.fullpath p) = some (.link t))
    (hi : d.entry (r.hddpath p) = some (.file i)) :
    Tidy r (moveFileHdd d (r.fullpath p)) ∧
      (∃ j, (moveFileHdd d (r.fullpath p)).entry (r.fullpath p) = some (.file j)) ∧
      ∀ q, q ≠ p → (moveFileHdd d (r.fullpath p)).entry (r.fullpath q) = d.entry (r.fullpath q) := by
  have hfits := h _ _ hlink
  have hhome := hfits.home p rfl
  have hmoved : Directories.moveFileHdd d (r.fullpath p)
      = (((d.unlink (r.fullpath p)).newFile (r.fullpath p)).setData d.nextIno (d.data i)).unlink
          (r.hddpath p) := by
    unfold Directories.moveFileHdd mv
    rw [r.getHddPath_fullpath]
    have hsrc : (d.unlink (r.fullpath p)).entry (r.hddpath p) = some (.file i) := by
      rw [← hi]
      exact Function.update_of_ne (r.fullpath_ne_hddpath p p).symm ..
    have hdir : (d.unlink (r.fullpath p)).dir = d.dir := rfl
    simp only [hdir, hfits.nodir, hhome, if_false, Bool.false_eq_true, and_self, if_true]
    exact Copying.mv_file hsrc
  have hnew : Tidy r ((d.unlink (r.fullpath p)).newFile (r.fullpath p)) :=
    (h.unlink (r.fullpath p)).newFile (Fits.file_ssd hfits.nodir hhome)
  have hentry : ∀ q, (Directories.moveFileHdd d (r.fullpath p)).entry (r.fullpath q)
      = Function.update d.entry (r.fullpath p) (some (.file d.nextIno)) (r.fullpath q) := by
    intro q
    rw [hmoved]
    simp [Disk.unlink, Disk.setEntry, Disk.setData, Disk.newFile, r.fullpath_ne_hddpath q p]
  refine ⟨?_, ⟨d.nextIno, ?_⟩, fun q hq => ?_⟩
  · rw [hmoved]
    exact (hnew.congr rfl rfl).unlink _
  · rw [hentry, Function.update_self]
  · rw [hentry, Function.update_of_ne fun hf => hq (r.fullpath_inj.mp hf)]

end Directories

end FusionFS
