import FusionFS.Effects
import FusionFS.Lib.Run

/-!
# Handles across a move

Between devices `mv` copies a file and unlinks the source. A handle stays with the inode it was opened
on, so what is written through it after the file has been moved goes to a file without a name. The
eviction loop does not ask for open handles.

There is one node, which owns every file, so nothing here depends on the store.
-/

namespace FusionFS

open SecondChance Transition

namespace Copying

/-! ### The operations of one node -/

/-- `mv src dst` from one device to another. -/
def mv (d : Disk) (src dst : Bytes) : Disk :=
  match d.entry src, d.entry dst with
  | none, _ => d
  | some (.file i), _ => ((d.newFile dst).setData d.nextIno (d.data i)).unlink src
  | some (.link _), some (.file j) => if d.openIno src = some j then d else d.rename src dst
  | some (.link _), _ => d.rename src dst

theorem mv_file {d : Disk} {src dst : Bytes} {i : Nat} (h : d.entry src = some (.file i)) :
    mv d src dst = ((d.newFile dst).setData d.nextIno (d.data i)).unlink src := by
  rw [mv, h]

theorem mv_of_no_file {d : Disk} {src dst : Bytes} (h : ∀ i, d.entry src ≠ some (.file i)) :
    mv d src dst = d.mv src dst := by
  unfold mv Disk.mv
  cases hsrc : d.entry src with
  | none => rfl
  | some e =>
      cases e with
      | file i => exact absurd hsrc (h i)
      | link t =>
          cases d.entry dst with
          | none => rfl
          | some e => cases e <;> rfl

def moveFileSsd (d : Disk) (fpath : Bytes) : Disk :=
  (mv d fpath (getHddPath fpath)).symlink (getHddPath fpath) fpath

def moveFileHdd (d : Disk) (fpath : Bytes) : Disk := mv (d.unlink fpath) (getHddPath fpath) fpath

/-- The eviction loop. The list holds what `ssd_is_full` answers. -/
def evictLoop : List Bool → NodeState → NodeState
  | true :: full, s =>
      match remque s.queue with
      | some (fname, rest) =>
          evictLoop full { s with disk := moveFileSsd s.disk fname, queue := rest }
      | none => s
  | _, s => s

/-- A descriptor for an open file, which comes into the queue. -/
def addHandle (r : Root) (h : Handle) (s : NodeState) : Nat × NodeState :=
  (s.nextFd, { s with
    queue := insque (r.fullpath h.path.bytes) s.queue
    fds := Function.update s.fds s.nextFd (some h)
    nextFd := s.nextFd + 1 })

variable (r : Root)

/-- The queue after a failed `open` or `creat`, which does not keep the name out of it. -/
def enqueue (path : FilePath) (s : NodeState) : NodeState :=
  { s with queue := insque (r.fullpath path.bytes) s.queue }

/-- `fusion_create`, with the descriptor if there is one. -/
def fusionCreate (full : List Bool) (path : FilePath) (s : NodeState) : Option Nat × NodeState :=
  let s := evictLoop full s
  match s.disk.creat (r.fullpath path.bytes) with
  | some (ino, d) =>
      let (fd, s) := addHandle r ⟨path, ino, .wronly⟩ { s with disk := d }
      (some fd, s)
  | none => (none, enqueue r path s)

/-- `fusion_open` up to the call of `open`. -/
def prepareOpen (full : List Bool) (path : FilePath) (s : NodeState) : NodeState :=
  let fpath := r.fullpath path.bytes
  if isSymlinkSsd s.disk fpath then
    let s := evictLoop full s
    { s with disk := moveFileHdd s.disk fpath }
  else s

/-- `fusion_open`, with the descriptor if there is one. -/
def fusionOpen (full : List Bool) (path : FilePath) (mode : OpenMode) (s : NodeState) :
    Option Nat × NodeState :=
  let s := prepareOpen r full path s
  match s.disk.openIno (r.fullpath path.bytes) with
  | some ino =>
      let (fd, s) := addHandle r ⟨path, ino, mode⟩ s
      (some fd, s)
  | none => (none, enqueue r path s)

def fusionRead (fd off size : Nat) (s : NodeState) : Option Bytes := do
  let h ← s.fds fd
  if h.mode = .wronly then none else some (((s.disk.data h.ino).drop off).take size)

def fusionWrite (fd off : Nat) (buf : Bytes) (s : NodeState) : Option NodeState := do
  let h ← s.fds fd
  if h.mode = .rdonly then none
  else some { s with disk := s.disk.setData h.ino (pwrite (s.disk.data h.ino) off buf) }

def fusionTruncate (path : FilePath) (size : Nat) (s : NodeState) : Option NodeState := do
  let fpath := r.fullpath path.bytes
  let fpath := if isSymlinkSsd s.disk fpath then getHddPath fpath else fpath
  let ino ← s.disk.openIno fpath
  some { s with disk := s.disk.setData ino (resize (s.disk.data ino) size) }

/-- `fusion_release` of a file that the node owns. -/
def fusionRelease (fd : Nat) (s : NodeState) : Option NodeState := do
  let _ ← s.fds fd
  some { s with fds := Function.update s.fds fd none }

/-- `fusion_unlink` on the local disk. Without such a file it changes nothing. -/
def fusionUnlink (path : FilePath) (s : NodeState) : NodeState :=
  let fpath := r.fullpath path.bytes
  let d := if isSymlinkSsd s.disk fpath then s.disk.unlink (getHddPath fpath) else s.disk
  { s with disk := d.unlink fpath, queue := rmelem fpath s.queue }

inductive LocalOp where
  | create (full : List Bool) (path : FilePath)
  | open (full : List Bool) (path : FilePath) (mode : OpenMode)
  | read (fd off size : Nat)
  | write (fd off : Nat) (buf : Bytes)
  | truncate (path : FilePath) (size : Nat)
  | release (fd : Nat)
  | unlink (path : FilePath)

/-- A step on one node. `create` and `open` are for files; their calls may fail. Where any other call
fails there is no step, as it changes nothing. -/
def localStep (s : NodeState) : LocalOp → Option NodeState
  | .create full path =>
      if s.disk.dir (r.fullpath path.bytes) then none else some (fusionCreate r full path s).2
  | .open full path mode =>
      if s.disk.dir (r.fullpath path.bytes) then none else some (fusionOpen r full path mode s).2
  | .read fd off size => (fusionRead fd off size s).map fun _ => s
  | .write fd off buf => fusionWrite fd off buf s
  | .truncate path size => fusionTruncate r path size s
  | .release fd => fusionRelease fd s
  | .unlink path => some (fusionUnlink r path s)

/-- What has been acknowledged: the contents of the files by their paths, and the descriptors whose
file has not been removed. -/
structure Acked where
  file : Bytes → Option Bytes
  named : Nat → Bool

/-- Creating a file empties it, and a write changes the file of its handle. -/
def ack (s : NodeState) (w : Acked) : LocalOp → Acked
  | .create full path =>
      match (fusionCreate r full path s).1 with
      | some fd => ⟨Function.update w.file path.bytes (some []), Function.update w.named fd true⟩
      | none => w
  | .open full path mode =>
      match (fusionOpen r full path mode s).1 with
      | some fd => { w with named := Function.update w.named fd true }
      | none => w
  | .write fd off buf =>
      match s.fds fd, w.named fd with
      | some h, true => { w with
          file := Function.update w.file h.path.bytes
            ((w.file h.path.bytes).map fun b => pwrite b off buf) }
      | _, _ => w
  | .truncate path size => { w with
      file := Function.update w.file path.bytes ((w.file path.bytes).map fun b => resize b size) }
  | .unlink path =>
      { file := Function.update w.file path.bytes none
        named := fun fd => w.named fd && (s.fds fd).all fun h => h.path.bytes ≠ path.bytes }
  | _ => w

def ackedStep (s : NodeState × Acked) (op : LocalOp) : Option (NodeState × Acked) :=
  (localStep r s.1 op).map fun s' => (s', ack r s.1 s.2 op)

/-- Opening a file and reading returns what has been acknowledged. -/
def Returned (s : NodeState × Acked) : Prop :=
  ∀ (p : FilePath) b, s.2.file p.bytes = some b → ∀ full mode,
    ∃ fd s', fusionOpen r full p mode s.1 = (some fd, s') ∧
      ∀ off size, mode ≠ .wronly → fusionRead fd off size s' = some ((b.drop off).take size)

/-- A write goes through a handle of the file that its path leads to, or changes nothing there. -/
def WritesThrough (s : NodeState × Acked) : LocalOp → Prop
  | .write fd off buf => s.2.named fd = true → ∀ h, s.1.fds fd = some h →
      s.1.disk.openIno (r.fullpath h.path.bytes) = some h.ino ∨
        ∀ i, s.1.disk.openIno (r.fullpath h.path.bytes) = some i →
          pwrite (s.1.disk.data i) off buf = s.1.disk.data i
  | _ => True

instance (s : NodeState × Acked) (op : LocalOp) : Decidable (WritesThrough r s op) :=
  match op with
  | .write fd off buf => inferInstanceAs (Decidable (s.2.named fd = true → ∀ h ∈ s.1.fds fd,
      s.1.disk.openIno (r.fullpath h.path.bytes) = some h.ino ∨
        ∀ i ∈ s.1.disk.openIno (r.fullpath h.path.bytes),
          pwrite (s.1.disk.data i) off buf = s.1.disk.data i))
  | .create _ _ | .open _ _ _ | .read _ _ _ | .truncate _ _ | .release _ | .unlink _ => .isTrue trivial

/-! ### The disk -/

variable {r}

/-- Links lead to the HDD, where a file always has a link to it. A link that leads to nothing is what
eviction makes of a name without a file. -/
structure Placed (r : Root) (path : Bytes) (s : Slot) : Prop where
  ssd_link : ∀ t, s.ssd = some (.link t) → t = r.hddpath path
  hdd_link : ∀ t, s.hdd = some (.link t) → t = r.hddpath path
  behind : ∀ i, s.hdd = some (.file i) → ∃ t, s.ssd = some (.link t)

/-- Every file is at one place and has an inode of its own. -/
structure Shelf (r : Root) (d : Disk) : Prop where
  placed : ∀ path, Placed r path (d.slot r path)
  nodir : ∀ path, (d.slot r path).ssd ≠ none → d.dir (r.fullpath path) = false
  fresh : ∀ path i, (d.slot r path).ino = some i → i < d.nextIno
  unique : ∀ p q i, (d.slot r p).ino = some i → (d.slot r q).ino = some i → p = q

/-- What the paths lead to. -/
def content (r : Root) (d : Disk) (path : Bytes) : Option Bytes := (d.slot r path).ino.map d.data

variable {d d' : Disk} {path : Bytes}

theorem Shelf.sane (h : Shelf r d) : d.Sane r where
  ssd_link path := (h.placed path).ssd_link
  hdd_link path := (h.placed path).hdd_link
  ssd_dir := h.nodir

theorem Shelf.openIno (h : Shelf r d) (path : Bytes) :
    d.openIno (r.fullpath path) = (d.slot r path).ino :=
  h.sane.openIno_fullpath path

/-- The disk afterwards: the paths lead to `files`, and to no inode that they did not lead to before
and that is not new. -/
structure Becomes (r : Root) (d d' : Disk) (files : Bytes → Option Bytes) : Prop where
  shelf : Shelf r d'
  leads : content r d' = files
  nextIno : d.nextIno ≤ d'.nextIno
  ino : ∀ q i, (d'.slot r q).ino = some i → (d.slot r q).ino = some i ∨ d.nextIno ≤ i

theorem Becomes.refl (h : Shelf r d) : Becomes r d d (content r d) :=
  ⟨h, rfl, Nat.le_refl _, fun _ _ hi => .inl hi⟩

/-- Nothing, or a new file, in the place of what the path led to before. -/
theorem Shelf.replace (h : Shelf r d) {s : Slot}
    (hslot : d'.slot r = Function.update (d.slot r) path s) (hplaced : Placed r path s)
    (hino : ∀ i, s.ino = some i → i = d.nextIno ∧ d.nextIno < d'.nextIno) (hdir : d'.dir = d.dir)
    (hnodir : s.ssd ≠ none → d.dir (r.fullpath path) = false)
    (hdata : ∀ i, i ≠ d.nextIno → d'.data i = d.data i) (hnext : d.nextIno ≤ d'.nextIno) :
    Becomes r d d' (Function.update (content r d) path (s.ino.map d'.data)) := by
  have hold : ∀ q i, (d.slot r q).ino = some i → i ≠ d.nextIno :=
    fun q i hi => (h.fresh q i hi).ne
  have hcases : ∀ q i, (d'.slot r q).ino = some i →
      (q = path ∧ i = d.nextIno ∧ d.nextIno < d'.nextIno) ∨
        (q ≠ path ∧ (d.slot r q).ino = some i) := by
    intro q i hi
    rw [hslot] at hi
    by_cases hq : q = path
    · subst hq
      rw [Function.update_self] at hi
      exact .inl ⟨rfl, hino i hi⟩
    · rw [Function.update_of_ne hq] at hi
      exact .inr ⟨hq, hi⟩
  constructor
  · constructor
    · intro q
      rw [hslot]
      by_cases hq : q = path
      · subst hq
        rwa [Function.update_self]
      · rw [Function.update_of_ne hq]
        exact h.placed q
    · intro q hne
      rw [hdir]
      rw [hslot] at hne
      by_cases hq : q = path
      · subst hq
        rw [Function.update_self] at hne
        exact hnodir hne
      · rw [Function.update_of_ne hq] at hne
        exact h.nodir q hne
    · intro q i hi
      rcases hcases q i hi with ⟨-, rfl, hlt⟩ | ⟨-, hi⟩
      · exact hlt
      · exact (h.fresh q i hi).trans_le hnext
    · intro p q i hp hq
      rcases hcases p i hp with ⟨rfl, rfl, -⟩ | ⟨-, hp⟩
      · rcases hcases q _ hq with ⟨rfl, -⟩ | ⟨-, hq⟩
        · rfl
        · exact absurd rfl (hold q _ hq)
      · rcases hcases q i hq with ⟨rfl, rfl, -⟩ | ⟨-, hq⟩
        · exact absurd rfl (hold p _ hp)
        · exact h.unique p q i hp hq
  · funext q
    unfold content
    rw [hslot]
    by_cases hq : q = path
    · subst hq
      rw [Function.update_self, Function.update_self]
    · rw [Function.update_of_ne hq, Function.update_of_ne hq]
      cases hi : (d.slot r q).ino with
      | none => rfl
      | some i => rw [Option.map_some, Option.map_some, hdata i (hold q i hi)]
  · exact hnext
  · intro q i hi
    rcases hcases q i hi with ⟨-, rfl, -⟩ | ⟨-, hi⟩
    · exact .inr (Nat.le_refl _)
    · exact .inl hi

theorem Shelf.place (h : Shelf r d) {s : Slot} {b : Bytes}
    (hslot : d'.slot r = Function.update (d.slot r) path s) (hplaced : Placed r path s)
    (hino : s.ino = some d.nextIno) (hdir : d'.dir = d.dir)
    (hnodir : d.dir (r.fullpath path) = false)
    (hdata : d'.data = Function.update d.data d.nextIno b) (hnext : d'.nextIno = d.nextIno + 1) :
    Becomes r d d' (Function.update (content r d) path (some b)) := by
  have hlt : d.nextIno < d'.nextIno := by omega
  have hreplace := h.replace hslot hplaced (fun i hi => ⟨?_, hlt⟩) hdir (fun _ => hnodir)
    (fun i hi => ?_) hlt.le
  · rwa [hino, Option.map_some, hdata, Function.update_self] at hreplace
  · rw [hino] at hi
    exact (Option.some.inj hi).symm
  · rw [hdata, Function.update_of_ne hi]

theorem Shelf.copied (h : Shelf r d) {s : Slot} {i : Nat} (hi : (d.slot r path).ino = some i)
    (hslot : d'.slot r = Function.update (d.slot r) path s) (hplaced : Placed r path s)
    (hino : s.ino = some d.nextIno) (hdir : d'.dir = d.dir)
    (hnodir : d.dir (r.fullpath path) = false)
    (hdata : d'.data = Function.update d.data d.nextIno (d.data i))
    (hnext : d'.nextIno = d.nextIno + 1) : Becomes r d d' (content r d) := by
  have hplace := h.place hslot hplaced hino hdir hnodir hdata hnext
  have hsame : content r d path = some (d.data i) := by
    rw [content, hi, Option.map_some]
  rwa [← hsame, Function.update_eq_self] at hplace

theorem Shelf.setData (h : Shelf r d) (i : Nat) (b : Bytes) : Shelf r (d.setData i b) :=
  ⟨h.placed, h.nodir, h.fresh, h.unique⟩

theorem content_setData_of_ne {q : Bytes} {i : Nat} (hq : (d.slot r q).ino ≠ some i) (b : Bytes) :
    content r (d.setData i b) q = content r d q := by
  change (d.slot r q).ino.map (Function.update d.data i b) = (d.slot r q).ino.map d.data
  cases hj : (d.slot r q).ino with
  | none => rfl
  | some j =>
      have hne : j ≠ i := by
        intro hji
        rw [hji] at hj
        exact hq hj
      rw [Option.map_some, Option.map_some, Function.update_of_ne hne]

theorem Shelf.write (h : Shelf r d) {i : Nat} (hi : (d.slot r path).ino = some i) (b : Bytes) :
    Becomes r d (d.setData i b) (Function.update (content r d) path (some b)) := by
  refine ⟨h.setData i b, ?_, Nat.le_refl _, fun _ _ hq => .inl hq⟩
  funext q
  by_cases hq : q = path
  · subst hq
    rw [Function.update_self, content, Disk.slot_setData, hi, Option.map_some, Disk.setData]
    dsimp only
    rw [Function.update_self]
  · rw [Function.update_of_ne hq]
    apply content_setData_of_ne
    intro hqi
    exact hq (h.unique q path i hqi hi)

theorem Shelf.write_nameless (h : Shelf r d) {i : Nat} (hi : ∀ q, (d.slot r q).ino ≠ some i)
    (b : Bytes) : Becomes r d (d.setData i b) (content r d) := by
  refine ⟨h.setData i b, ?_, Nat.le_refl _, fun _ _ hq => .inl hq⟩
  funext q
  exact content_setData_of_ne (hi q) b

/-! ### What the calls make of the disk -/

theorem placed_absent : Placed r path ⟨none, none⟩ where
  ssd_link _ ht := nomatch ht
  hdd_link _ ht := nomatch ht
  behind _ hi := nomatch hi

theorem placed_hdd (i : Nat) : Placed r path ⟨some (.link (r.hddpath path)), some (.file i)⟩ where
  ssd_link t ht := by
    cases ht
    rfl
  hdd_link _ ht := nomatch ht
  behind _ _ := ⟨_, rfl⟩

theorem Placed.ssd_file {s : Slot} (h : Placed r path s) (hhdd : ∀ i, s.hdd ≠ some (.file i))
    (i : Nat) : Placed r path { s with ssd := some (.file i) } where
  ssd_link _ ht := nomatch ht
  hdd_link := h.hdd_link
  behind j hj := absurd hj (hhdd j)

theorem Placed.hdd_file {s : Slot} {t : Bytes} (h : Placed r path s) (ht : s.ssd = some (.link t))
    (i : Nat) : Placed r path { s with hdd := some (.file i) } where
  ssd_link := h.ssd_link
  hdd_link _ hu := nomatch hu
  behind _ _ := ⟨t, ht⟩

theorem Placed.ssd_none {s : Slot} (h : Placed r path s) (hhdd : ∀ i, s.hdd ≠ some (.file i)) :
    Placed r path { s with ssd := none } where
  ssd_link _ ht := nomatch ht
  hdd_link := h.hdd_link
  behind i hi := absurd hi (hhdd i)

theorem Placed.promoted {s : Slot} (h : Placed r path s) : Placed r path s.promoted where
  ssd_link := h.hdd_link
  hdd_link _ ht := nomatch ht
  behind _ hi := nomatch hi

theorem Placed.cases_of_ino {s : Slot} {i : Nat} (h : Placed r path s) (hi : s.ino = some i) :
    s.ssd = some (.file i) ∨ s = ⟨some (.link (r.hddpath path)), some (.file i)⟩ := by
  obtain ⟨ssd, hdd⟩ := s
  cases ssd with
  | none => cases hi
  | some e =>
      cases e with
      | file j =>
          cases hi
          exact .inl rfl
      | link t =>
          cases h.ssd_link t rfl
          cases hdd with
          | none => cases hi
          | some e =>
              cases e with
              | file j =>
                  cases hi
                  exact .inr rfl
              | link u => cases hi

theorem Shelf.nodir_of_ino (h : Shelf r d) {i : Nat} (hi : (d.slot r path).ino = some i) :
    d.dir (r.fullpath path) = false := by
  apply h.nodir
  intro hnone
  rw [Slot.ino, hnone] at hi
  cases hi

theorem Shelf.moveFileSsd_regular (h : Shelf r d) {i : Nat}
    (hs : (d.slot r path).ssd = some (.file i)) :
    Becomes r d (Copying.moveFileSsd d (r.fullpath path)) (content r d) ∧
      ∀ q, q ≠ path → (Copying.moveFileSsd d (r.fullpath path)).slot r q = d.slot r q := by
  have hi : (d.slot r path).ino = some i := by
    rw [Slot.ino, hs]
  have hnodir := h.nodir_of_ino hi
  rw [Copying.moveFileSsd, r.getHddPath_fullpath, mv_file (by rw [Disk.entry_fullpath, hs])]
  generalize hd₁ : ((d.newFile (r.hddpath path)).setData d.nextIno (d.data i)).unlink
    (r.fullpath path) = d₁
  have hslot : d₁.slot r = Function.update (d.slot r) path ⟨none, some (.file d.nextIno)⟩ := by
    rw [← hd₁, Disk.unlink, Disk.slot_setEntry_ssd, Disk.slot_setData, Disk.slot_newFile_hdd,
      Function.update_self, Function.update_idem]
  have hdir : d₁.dir = d.dir := by
    rw [← hd₁]
    rfl
  have hdata : d₁.data = Function.update d.data d.nextIno (d.data i) := by
    rw [← hd₁]
    exact Function.update_idem _ _ _
  have hnext : d₁.nextIno = d.nextIno + 1 := by
    rw [← hd₁]
    rfl
  have hlink := Disk.moved_symlink (r := r) d₁ path
  rw [hslot, hdir, Function.update_self, if_pos ⟨rfl, hnodir⟩] at hlink
  have hafter := hlink.slot
  rw [hslot, Function.update_idem] at hafter
  constructor
  · exact h.copied hi hafter (placed_hdd d.nextIno) rfl (hlink.dir.trans hdir) hnodir
      (hlink.data.trans hdata) (hlink.nextIno.trans hnext)
  · intro q hq
    rw [hafter, Function.update_of_ne hq]

theorem Shelf.moveFileSsd_link (h : Shelf r d) {i : Nat}
    (hs : d.slot r path = ⟨some (.link (r.hddpath path)), some (.file i)⟩) :
    Copying.moveFileSsd d (r.fullpath path) = d := by
  have hopen : d.openIno (r.fullpath path) = some i := by
    rw [h.openIno, hs]
    rfl
  have hmv : mv d (r.fullpath path) (r.hddpath path) = d := by
    rw [mv, Disk.entry_fullpath, Disk.entry_hddpath, hs]
    exact if_pos hopen
  rw [Copying.moveFileSsd, r.getHddPath_fullpath, hmv, Disk.symlink, Disk.lstat, Disk.entry_fullpath,
    hs]
  rfl

/-- Nothing has changed for a path that leads to nothing before and afterwards. -/
theorem Shelf.hollow (h : Shelf r d) {s : Slot} (hm : Disk.Moved r d d' path s)
    (hold : (d.slot r path).ino = none) (hnew : s.ino = none) (hplaced : Placed r path s)
    (hnodir : s.ssd ≠ none → d.dir (r.fullpath path) = false) : Becomes r d d' (content r d) := by
  have hreplace := h.replace hm.slot hplaced (fun i hi => ?_) hm.dir hnodir
    (fun i _ => congrFun hm.data i) hm.nextIno.ge
  · have hnone : content r d path = s.ino.map d'.data := by
      rw [content, hold, hnew]
      rfl
    rwa [← hnone, Function.update_eq_self] at hreplace
  · rw [hnew] at hi
    cases hi

theorem Placed.hdd_of_no_ino {s : Slot} (h : Placed r path s) (hino : s.ino = none) (i : Nat) :
    s.hdd ≠ some (.file i) := by
  intro hi
  obtain ⟨t, ht⟩ := h.behind i hi
  rw [Slot.ino, ht, hi] at hino
  cases hino

/-- Evicting a name without a file leaves a link that leads to nothing. -/
theorem evicted_of_no_ino {s : Slot} (target : Bytes) (isDir : Bool) (hino : s.ino = none)
    (hhdd : ∀ i, s.hdd ≠ some (.file i)) : (s.evicted target isDir).ino = none ∧
      ∀ i, (s.evicted target isDir).hdd ≠ some (.file i) := by
  obtain ⟨ssd, hdd⟩ := s
  cases ssd with
  | none =>
      cases isDir with
      | true => exact ⟨hino, hhdd⟩
      | false =>
          refine ⟨?_, hhdd⟩
          cases hdd with
          | none => rfl
          | some e =>
              cases e with
              | file i => exact absurd rfl (hhdd i)
              | link t => rfl
  | some e =>
      cases e with
      | file i => cases hino
      | link t =>
          cases hdd with
          | none => exact ⟨rfl, fun i hi => nomatch hi⟩
          | some e =>
              cases e with
              | file i => cases hino
              | link u => exact ⟨rfl, fun i hi => nomatch hi⟩

/-- Eviction keeps the contents of the files, and what is a link stays one. -/
theorem Shelf.moveFileSsd (h : Shelf r d) (path : Bytes) :
    Becomes r d (Copying.moveFileSsd d (r.fullpath path)) (content r d) ∧
      ∀ q, (∃ t, (d.slot r q).ssd = some (.link t)) →
        ∃ t, ((Copying.moveFileSsd d (r.fullpath path)).slot r q).ssd = some (.link t) := by
  cases hi : (d.slot r path).ino with
  | some i =>
      rcases (h.placed path).cases_of_ino hi with hs | hs
      · obtain ⟨hbecomes, hother⟩ := h.moveFileSsd_regular hs
        refine ⟨hbecomes, fun q hq => ?_⟩
        rw [hother q ?_]
        · exact hq
        · rintro rfl
          obtain ⟨t, ht⟩ := hq
          rw [hs] at ht
          cases ht
      · rw [h.moveFileSsd_link hs]
        exact ⟨.refl h, fun _ hq => hq⟩
  | none =>
      have hfile : ∀ i, d.entry (r.fullpath path) ≠ some (.file i) := by
        intro i hentry
        have hssd : (d.slot r path).ssd = some (.file i) := hentry
        rw [Slot.ino, hssd] at hi
        cases hi
      have hsame : Copying.moveFileSsd d (r.fullpath path)
          = FusionFS.moveFileSsd d (r.fullpath path) := by
        rw [Copying.moveFileSsd, FusionFS.moveFileSsd, mv_of_no_file hfile]
      have hm := h.sane.moved_moveFileSsd path
      have hsane := h.sane.moveFileSsd path
      have hssd := hsane.ssd_link path
      have hhdd := hsane.hdd_link path
      have hdir := hsane.ssd_dir path
      rw [hm.at] at hssd hhdd hdir
      rw [hm.dir] at hdir
      obtain ⟨hnone, hnofile⟩ := evicted_of_no_ino (r.hddpath path)
        (d.dir (r.fullpath path)) hi ((h.placed path).hdd_of_no_ino hi)
      rw [hsame]
      constructor
      · exact h.hollow hm hi hnone ⟨hssd, hhdd, fun i hi => absurd hi (hnofile i)⟩ hdir
      · intro q hq
        by_cases heq : q = path
        · subst heq
          obtain ⟨t, ht⟩ := hq
          rw [hm.at, h.nodir q (by rw [ht]; exact Option.some_ne_none _)]
          exact ⟨_, Slot.link_of_evicted⟩
        · rw [hm.elsewhere heq]
          exact hq

theorem Shelf.moveFileHdd_link (h : Shelf r d) {i : Nat}
    (hs : d.slot r path = ⟨some (.link (r.hddpath path)), some (.file i)⟩) :
    Becomes r d (Copying.moveFileHdd d (r.fullpath path)) (content r d) := by
  have hi : (d.slot r path).ino = some i := by
    rw [hs]
    rfl
  have hrm : (d.unlink (r.fullpath path)).slot r
      = Function.update (d.slot r) path ⟨none, some (.file i)⟩ := by
    rw [Disk.unlink, Disk.slot_setEntry_ssd, hs]
  rw [Copying.moveFileHdd, r.getHddPath_fullpath,
    mv_file (by rw [Disk.entry_hddpath, hrm, Function.update_self])]
  refine h.copied hi ?_ (placed_absent.ssd_file (fun _ hj => nomatch hj) d.nextIno) rfl ?_
    (h.nodir_of_ino hi) ?_ ?_
  · rw [Disk.unlink, Disk.slot_setEntry_hdd, Disk.slot_setData, Disk.slot_newFile_ssd, hrm,
      Function.update_self, Function.update_idem, Function.update_idem]
    dsimp only
    rw [Function.update_self]
    rfl
  · rfl
  · exact Function.update_idem _ _ _
  · rfl

theorem Shelf.moveFileHdd (h : Shelf r d) (hlink : ∃ t, (d.slot r path).ssd = some (.link t)) :
    Becomes r d (Copying.moveFileHdd d (r.fullpath path)) (content r d) := by
  obtain ⟨t, ht⟩ := hlink
  cases hi : (d.slot r path).ino with
  | some i =>
      rcases (h.placed path).cases_of_ino hi with hs | hs
      · rw [hs] at ht
        cases ht
      · exact h.moveFileHdd_link hs
  | none =>
      have hnofile := (h.placed path).hdd_of_no_ino hi
      have hm := Disk.moved_moveFileHdd (r := r) d path
      have hsame : Copying.moveFileHdd d (r.fullpath path)
          = FusionFS.moveFileHdd d (r.fullpath path) := by
        have hrm : (d.unlink (r.fullpath path)).entry (r.hddpath path) = d.entry (r.hddpath path) :=
          Function.update_of_ne (r.fullpath_ne_hddpath path path).symm _ _
        rw [Copying.moveFileHdd, FusionFS.moveFileHdd, r.getHddPath_fullpath, mv_of_no_file]
        rw [hrm]
        exact hnofile
      have hnone : (d.slot r path).promoted.ino = none := by
        unfold Slot.promoted Slot.ino
        cases hhdd : (d.slot r path).hdd with
        | none => rfl
        | some e =>
            cases e with
            | file i => exact absurd hhdd (hnofile i)
            | link u => rfl
      rw [hsame]
      refine h.hollow hm hi hnone (h.placed path).promoted fun _ => h.nodir path ?_
      rw [ht]
      exact Option.some_ne_none _

theorem Shelf.creat (h : Shelf r d) {i : Nat} (hc : d.creat (r.fullpath path) = some (i, d')) :
    Becomes r d d' (Function.update (content r d) path (some [])) ∧ (d'.slot r path).ino = some i := by
  have hw := h.sane.written_creat hc
  refine ⟨?_, hw.at⟩
  cases hino : (d.slot r path).ino with
  | some j =>
      rw [h.sane.creat_of_ino hino] at hc
      obtain ⟨rfl, rfl⟩ := Prod.mk.inj (Option.some.inj hc)
      exact h.write hino []
  | none =>
      have hplaced := h.placed path
      have hnofile := hplaced.hdd_of_no_ino hino
      obtain ⟨s, hslot, hs, hplace⟩ := hw.slot
      rcases hplace with ⟨rfl, -⟩ | ⟨hgrown, rfl, hnext, hnodir⟩
      · rw [hino] at hs
        cases hs
      · rcases hgrown with ⟨hnone, rfl⟩ | ⟨⟨t, ht⟩, -, rfl⟩
        · exact h.place hslot (hplaced.ssd_file hnofile d.nextIno) hs hw.dir (hnodir hnone) hw.data
            hnext
        · refine h.place hslot (hplaced.hdd_file ht d.nextIno) hs hw.dir (h.nodir path ?_) hw.data
            hnext
          rw [ht]
          exact Option.some_ne_none _

theorem Shelf.isSymlinkSsd_of_hdd (h : Shelf r d) {i : Nat}
    (hi : (d.slot r path).hdd = some (.file i)) : isSymlinkSsd d (r.fullpath path) = true := by
  obtain ⟨t, ht⟩ := (h.placed path).behind i hi
  rw [isSymlinkSsd, Disk.entry_fullpath, ht, r.getHddPath_fullpath]
  exact Disk.access_file hi

theorem Shelf.unlink (h : Shelf r d) (path : Bytes) :
    Becomes r d ((if isSymlinkSsd d (r.fullpath path) then d.unlink (getHddPath (r.fullpath path))
      else d).unlink (r.fullpath path)) (Function.update (content r d) path none) := by
  rw [r.getHddPath_fullpath]
  cases hsym : isSymlinkSsd d (r.fullpath path) with
  | true =>
      rw [if_pos rfl]
      refine h.replace (s := ⟨none, none⟩) ?_ placed_absent (fun _ hi => nomatch hi) rfl
        (fun hne => absurd rfl hne) (fun _ _ => rfl) (Nat.le_refl _)
      rw [Disk.unlink, Disk.slot_setEntry_ssd, Disk.unlink, Disk.slot_setEntry_hdd,
        Function.update_self, Function.update_idem]
  | false =>
      have hnofile : ∀ i, (d.slot r path).hdd ≠ some (.file i) := by
        intro i hi
        rw [h.isSymlinkSsd_of_hdd hi] at hsym
        cases hsym
      rw [if_neg Bool.false_ne_true]
      exact h.replace (Disk.slot_setEntry_ssd d path none) ((h.placed path).ssd_none hnofile)
        (fun _ hi => nomatch hi) rfl (fun hne => absurd rfl hne) (fun _ _ => rfl) (Nat.le_refl _)

theorem Shelf.openIno_truncate (h : Shelf r d) (path : Bytes) :
    d.openIno (if isSymlinkSsd d (r.fullpath path) then getHddPath (r.fullpath path)
      else r.fullpath path) = (d.slot r path).ino := by
  cases hsym : isSymlinkSsd d (r.fullpath path) with
  | false =>
      rw [if_neg Bool.false_ne_true]
      exact h.openIno path
  | true =>
      obtain ⟨t, ht⟩ := link_of_isSymlinkSsd hsym
      rw [if_pos rfl, r.getHddPath_fullpath, h.sane.openIno_hddpath, Slot.ino, ht]

/-! ### What holds along a run -/

/-- The paths lead to what has been acknowledged. An open file that a path leads to is the file of
that path, and has not been removed. -/
structure Stored (r : Root) (s : NodeState) (w : Acked) : Prop where
  shelf : Shelf r s.disk
  file : content r s.disk = w.file
  queue : ∀ f ∈ names s.queue, ∃ p : FilePath, f = r.fullpath p.bytes
  fresh : ∀ fd h, s.fds fd = some h → h.ino < s.disk.nextIno
  handle : ∀ fd h q, s.fds fd = some h → (s.disk.slot r q).ino = some h.ino →
    q = h.path.bytes ∧ w.named fd = true

variable {s s' : NodeState} {w w' : Acked}

theorem Stored.exists_ino (h : Stored r s w) {b : Bytes} (hb : w.file path = some b) :
    ∃ i, (s.disk.slot r path).ino = some i ∧ s.disk.data i = b := by
  rw [← h.file] at hb
  exact Option.map_eq_some_iff.mp hb

theorem Stored.of_becomes (h : Stored r s w) (hdisk : Becomes r s.disk s'.disk w'.file)
    (hfds : s'.fds = s.fds) (hqueue : ∀ f ∈ names s'.queue, f ∈ names s.queue)
    (hnamed : ∀ fd h, s.fds fd = some h → w.named fd = true → w'.file h.path.bytes ≠ none →
      w'.named fd = true) : Stored r s' w' where
  shelf := hdisk.shelf
  file := hdisk.leads
  queue f hf := h.queue f (hqueue f hf)
  fresh fd hd hfd := by
    rw [hfds] at hfd
    exact (h.fresh fd hd hfd).trans_le hdisk.nextIno
  handle fd hd q hfd hq := by
    rw [hfds] at hfd
    have hold : (s.disk.slot r q).ino = some hd.ino := by
      rcases hdisk.ino q hd.ino hq with hold | hnew
      · exact hold
      · exact absurd (h.fresh fd hd hfd) hnew.not_gt
    obtain ⟨rfl, hn⟩ := h.handle fd hd q hfd hold
    refine ⟨rfl, hnamed fd hd hfd hn ?_⟩
    rw [← hdisk.leads, content, hq]
    exact Option.some_ne_none _

theorem Stored.moved (h : Stored r s w) (hdisk : Becomes r s.disk s'.disk (content r s.disk))
    (hfds : s'.fds = s.fds) (hqueue : ∀ f ∈ names s'.queue, f ∈ names s.queue) : Stored r s' w := by
  rw [h.file] at hdisk
  exact h.of_becomes hdisk hfds hqueue fun _ _ _ hn _ => hn

/-- The loop keeps the contents, and what is on the HDD already stays there. -/
theorem Stored.evictLoop (h : Stored r s w) (full : List Bool) :
    Stored r (Copying.evictLoop full s) w ∧
      ∀ q, (∃ t, (s.disk.slot r q).ssd = some (.link t)) →
        ∃ t, ((Copying.evictLoop full s).disk.slot r q).ssd = some (.link t) := by
  induction full generalizing s with
  | nil => exact ⟨h, fun _ hq => hq⟩
  | cons b full ih =>
      cases b with
      | false => exact ⟨h, fun _ hq => hq⟩
      | true =>
          rw [Copying.evictLoop]
          cases hq : remque s.queue with
          | none => exact ⟨h, fun _ hq => hq⟩
          | some res =>
              obtain ⟨fname, rest⟩ := res
              have hperm := names_perm_of_remque hq
              obtain ⟨p, rfl⟩ := h.queue fname (hperm.mem_iff.mpr List.mem_cons_self)
              obtain ⟨hdisk, hlinks⟩ := h.shelf.moveFileSsd p.bytes
              have hnext : Stored r { s with
                  disk := Copying.moveFileSsd s.disk (r.fullpath p.bytes), queue := rest } w := by
                refine h.moved hdisk rfl fun f hf => ?_
                exact hperm.mem_iff.mpr (List.mem_cons_of_mem _ hf)
              obtain ⟨hstored, hafter⟩ := ih hnext
              exact ⟨hstored, fun q hlink => hafter q (hlinks q hlink)⟩

theorem Stored.prepareOpen (h : Stored r s w) (full : List Bool) (p : FilePath) :
    Stored r (Copying.prepareOpen r full p s) w := by
  unfold Copying.prepareOpen
  dsimp only
  cases hsym : isSymlinkSsd s.disk (r.fullpath p.bytes) with
  | false =>
      rw [if_neg Bool.false_ne_true]
      exact h
  | true =>
      rw [if_pos rfl]
      obtain ⟨hstored, hlinks⟩ := h.evictLoop full
      have hlink := hlinks p.bytes (link_of_isSymlinkSsd hsym)
      exact hstored.moved (hstored.shelf.moveFileHdd hlink) rfl fun _ hf => hf

theorem Stored.enqueue (h : Stored r s w) (p : FilePath) : Stored r (Copying.enqueue r p s) w where
  shelf := h.shelf
  file := h.file
  queue f hf := by
    rcases mem_names_insque.mp hf with rfl | hf
    · exact ⟨p, rfl⟩
    · exact h.queue f hf
  fresh := h.fresh
  handle := h.handle

theorem Stored.addHandle (h : Stored r s w) {p : FilePath} {i : Nat} (mode : OpenMode)
    (hi : (s.disk.slot r p.bytes).ino = some i) : Stored r (Copying.addHandle r ⟨p, i, mode⟩ s).2
      { w with named := Function.update w.named s.nextFd true } where
  shelf := h.shelf
  file := h.file
  queue := (h.enqueue p).queue
  fresh fd hd hfd := by
    change Function.update s.fds s.nextFd (some ⟨p, i, mode⟩) fd = some hd at hfd
    by_cases hnew : fd = s.nextFd
    · rw [hnew, Function.update_self] at hfd
      cases hfd
      exact h.shelf.fresh p.bytes i hi
    · rw [Function.update_of_ne hnew] at hfd
      exact h.fresh fd hd hfd
  handle fd hd q hfd hq := by
    change Function.update s.fds s.nextFd (some ⟨p, i, mode⟩) fd = some hd at hfd
    change (s.disk.slot r q).ino = some hd.ino at hq
    change q = hd.path.bytes ∧ Function.update w.named s.nextFd true fd = true
    by_cases hnew : fd = s.nextFd
    · rw [hnew, Function.update_self] at hfd ⊢
      cases hfd
      exact ⟨h.shelf.unique q p.bytes i hq hi, rfl⟩
    · rw [Function.update_of_ne hnew] at hfd ⊢
      exact h.handle fd hd q hfd hq

theorem fusionOpen_eq {p : FilePath} {full : List Bool} {mode : OpenMode} {i : Nat}
    (hopen : (prepareOpen r full p s).disk.openIno (r.fullpath p.bytes) = some i) :
    fusionOpen r full p mode s = (some (prepareOpen r full p s).nextFd,
      (addHandle r ⟨p, i, mode⟩ (prepareOpen r full p s)).2) := by
  unfold fusionOpen
  dsimp only
  rw [hopen]
  rfl

theorem fusionRead_addHandle {h : Handle} {off size : Nat} (hmode : h.mode ≠ .wronly) :
    fusionRead s.nextFd off size (addHandle r h s).2
      = some (((s.disk.data h.ino).drop off).take size) := by
  unfold fusionRead
  change ((Function.update s.fds s.nextFd (some h)) s.nextFd).bind _ = _
  rw [Function.update_self, Option.bind_some]
  exact if_neg hmode

/-- A file that is there can be opened, and gives what has been acknowledged. -/
theorem Stored.returned (h : Stored r s w) : Returned r (s, w) := by
  intro p b hb full mode
  have hstored := h.prepareOpen full p
  obtain ⟨i, hi, hdata⟩ := hstored.exists_ino hb
  have hopen : (Copying.prepareOpen r full p s).disk.openIno (r.fullpath p.bytes) = some i := by
    rw [hstored.shelf.openIno, hi]
  refine ⟨_, _, fusionOpen_eq hopen, fun off size hmode => ?_⟩
  rw [← hdata]
  exact fusionRead_addHandle hmode

/-! ### The operations along a run -/

variable {p : FilePath} {full : List Bool} {fd off : Nat} {buf : Bytes}

theorem Stored.create (h : Stored r s w) :
    Stored r (fusionCreate r full p s).2 (ack r s w (.create full p)) := by
  obtain ⟨hstored, -⟩ := h.evictLoop full
  unfold ack fusionCreate
  dsimp only
  cases hcreat : (Copying.evictLoop full s).disk.creat (r.fullpath p.bytes) with
  | none => exact hstored.enqueue p
  | some res =>
      obtain ⟨i, d⟩ := res
      obtain ⟨hdisk, hi⟩ := hstored.shelf.creat hcreat
      rw [hstored.file] at hdisk
      have hnew : Stored r { Copying.evictLoop full s with disk := d }
          { w with file := Function.update w.file p.bytes (some []) } :=
        hstored.of_becomes hdisk rfl (fun _ hf => hf) fun _ _ _ hn _ => hn
      exact hnew.addHandle .wronly hi

theorem Stored.open {mode : OpenMode} (h : Stored r s w) :
    Stored r (fusionOpen r full p mode s).2 (ack r s w (.open full p mode)) := by
  have hstored := h.prepareOpen full p
  unfold ack fusionOpen
  dsimp only
  cases hopen : (Copying.prepareOpen r full p s).disk.openIno (r.fullpath p.bytes) with
  | none => exact hstored.enqueue p
  | some i =>
      rw [hstored.shelf.openIno] at hopen
      exact hstored.addHandle mode hopen

theorem Stored.rewrite (h : Stored r s w) {path : Bytes} {i : Nat} (f : Bytes → Bytes)
    (hi : (s.disk.slot r path).ino = some i) :
    Stored r { s with disk := s.disk.setData i (f (s.disk.data i)) }
      { w with file := Function.update w.file path ((w.file path).map f) } := by
  have hsome : w.file path = some (s.disk.data i) := by
    rw [← h.file, content, hi, Option.map_some]
  have hdisk := h.shelf.write hi (f (s.disk.data i))
  rw [h.file] at hdisk
  rw [hsome, Option.map_some]
  exact h.of_becomes hdisk rfl (fun _ hf => hf) fun _ _ _ hn _ => hn

theorem Stored.truncate {size : Nat} (h : Stored r s w)
    (hc : fusionTruncate r p size s = some s') : Stored r s' (ack r s w (.truncate p size)) := by
  unfold fusionTruncate at hc
  dsimp only [Option.bind_eq_bind] at hc
  rw [h.shelf.openIno_truncate, Option.bind_eq_some_iff] at hc
  obtain ⟨i, hi, hres⟩ := hc
  cases hres
  exact h.rewrite (fun b => resize b size) hi

theorem Stored.release (h : Stored r s w) (hc : fusionRelease fd s = some s') : Stored r s' w := by
  unfold fusionRelease at hc
  rw [Option.bind_eq_bind, Option.bind_eq_some_iff] at hc
  obtain ⟨closed, -, hres⟩ := hc
  cases hres
  have hopen : ∀ fd' hd, Function.update s.fds fd none fd' = some hd → s.fds fd' = some hd := by
    intro fd' hd hfd
    by_cases heq : fd' = fd
    · rw [heq, Function.update_self] at hfd
      cases hfd
    · rwa [Function.update_of_ne heq] at hfd
  exact ⟨h.shelf, h.file, h.queue, fun fd' hd hfd => h.fresh fd' hd (hopen fd' hd hfd),
    fun fd' hd q hfd => h.handle fd' hd q (hopen fd' hd hfd)⟩

theorem Stored.unlink (h : Stored r s w) :
    Stored r (fusionUnlink r p s) (ack r s w (.unlink p)) := by
  have hdisk := h.shelf.unlink p.bytes
  rw [h.file] at hdisk
  refine h.of_becomes hdisk rfl (fun f hf => (mem_names_rmelem.mp hf).1) fun fd hd hfd hn hfile => ?_
  have hne : hd.path.bytes ≠ p.bytes := by
    intro heq
    apply hfile
    change Function.update w.file p.bytes none hd.path.bytes = none
    rw [heq, Function.update_self]
  change (w.named fd && (s.fds fd).all _) = true
  rw [hn, hfd]
  simpa using hne

theorem write_cases (hc : fusionWrite fd off buf s = some s') : ∃ hd, s.fds fd = some hd ∧
    s' = { s with disk := s.disk.setData hd.ino (pwrite (s.disk.data hd.ino) off buf) } := by
  unfold fusionWrite at hc
  rw [Option.bind_eq_bind, Option.bind_eq_some_iff] at hc
  obtain ⟨hd, hfd, hres⟩ := hc
  split at hres
  · cases hres
  · cases hres
    exact ⟨hd, hfd, rfl⟩

/-- A handle that its path does not lead to any more is that of a file without a name. -/
theorem Stored.write_nameless (h : Stored r s w) {hd : Handle} (hfd : s.fds fd = some hd)
    (hstale : w.named fd = true → (s.disk.slot r hd.path.bytes).ino ≠ some hd.ino) (b : Bytes) :
    Stored r { s with disk := s.disk.setData hd.ino b } w := by
  have hnameless : ∀ q, (s.disk.slot r q).ino ≠ some hd.ino := by
    intro q hq
    obtain ⟨rfl, hnamed⟩ := h.handle fd hd q hfd hq
    exact hstale hnamed hq
  exact h.moved (h.shelf.write_nameless hnameless b) rfl fun _ hf => hf

theorem Stored.write (h : Stored r s w) (hc : fusionWrite fd off buf s = some s')
    (hg : WritesThrough r (s, w) (.write fd off buf)) : Stored r s' (ack r s w (.write fd off buf)) := by
  obtain ⟨hd, hfd, rfl⟩ := write_cases hc
  unfold ack
  dsimp only
  rw [hfd]
  cases hnamed : w.named fd with
  | false =>
      apply h.write_nameless hfd
      rw [hnamed]
      exact fun habs => absurd habs Bool.false_ne_true
  | true =>
      dsimp only
      by_cases hino : (s.disk.slot r hd.path.bytes).ino = some hd.ino
      · exact h.rewrite (fun b => pwrite b off buf) hino
      · have hsame : (w.file hd.path.bytes).map (fun b => pwrite b off buf) = w.file hd.path.bytes := by
          have hwrite := hg hnamed hd hfd
          rw [h.shelf.openIno] at hwrite
          rw [← h.file, content]
          cases hi : (s.disk.slot r hd.path.bytes).ino with
          | none => rfl
          | some i => exact congrArg some ((hwrite.resolve_left hino) i hi)
        rw [hsame, Function.update_eq_self]
        exact h.write_nameless hfd (fun _ => hino) _

theorem Returned.unique (h : Returned r (s, w)) (h' : Returned r (s, w')) {b b' : Bytes}
    (hb : w.file p.bytes = some b) (hb' : w'.file p.bytes = some b') : b = b' := by
  obtain ⟨fd, after, hopen, hread⟩ := h p b hb [] .rdonly
  obtain ⟨fd', after', hopen', hread'⟩ := h' p b' hb' [] .rdonly
  obtain ⟨hfd, rfl⟩ := Prod.mk.inj (hopen.symm.trans hopen')
  cases hfd
  have hsame := (hread 0 (b.length + b'.length) (by decide)).symm.trans
    (hread' 0 (b.length + b'.length) (by decide))
  calc
    b = (b.drop 0).take (b.length + b'.length) := by
      rw [List.drop_zero, List.take_of_length_le (by omega)]
    _ = (b'.drop 0).take (b.length + b'.length) := Option.some.inj hsame
    _ = b' := by
      rw [List.drop_zero, List.take_of_length_le (by omega)]

/-- A write that is returned went through, or made no difference. -/
theorem Stored.writesThrough (h : Stored r s w) (hc : fusionWrite fd off buf s = some s')
    (hret : Returned r (s', ack r s w (.write fd off buf))) :
    WritesThrough r (s, w) (.write fd off buf) := by
  obtain ⟨hd, hfd, rfl⟩ := write_cases hc
  intro hnamed hd' hfd'
  obtain rfl := Option.some.inj (hfd.symm.trans hfd')
  rw [h.shelf.openIno]
  by_cases hino : (s.disk.slot r hd.path.bytes).ino = some hd.ino
  · exact .inl hino
  · refine .inr fun i hi => ?_
    have hold : w.file hd.path.bytes = some (s.disk.data i) := by
      rw [← h.file, content, hi, Option.map_some]
    have hnew : (ack r s w (.write fd off buf)).file hd.path.bytes
        = some (pwrite (s.disk.data i) off buf) := by
      unfold ack
      dsimp only
      rw [hfd, hnamed]
      dsimp only
      rw [Function.update_self, hold, Option.map_some]
    exact hret.unique (h.write_nameless hfd (fun _ => hino) _).returned hnew hold

theorem Stored.step {op : LocalOp} (h : Stored r s w) (hs : localStep r s op = some s')
    (hg : WritesThrough r (s, w) op) : Stored r s' (ack r s w op) := by
  cases op with
  | create full p =>
      rw [localStep, Option.ite_none_left_eq_some] at hs
      obtain ⟨-, hs⟩ := hs
      cases hs
      exact h.create
  | «open» full p mode =>
      rw [localStep, Option.ite_none_left_eq_some] at hs
      obtain ⟨-, hs⟩ := hs
      cases hs
      exact h.open
  | read fd off size =>
      obtain ⟨b, -, rfl⟩ := Option.map_eq_some_iff.mp hs
      exact h
  | write fd off buf => exact h.write hs hg
  | truncate p size => exact h.truncate hs
  | release fd => exact h.release hs
  | unlink p =>
      cases hs
      exact h.unlink

/-- What a node has when it is mounted: files, each at its place, and none of them open. -/
structure Mounted (r : Root) (s : NodeState) : Prop where
  shelf : Shelf r s.disk
  queue : s.queue = []
  fds : ∀ fd, s.fds fd = none

/-- What is there when the node is mounted counts as acknowledged. -/
def Acked.mounted (r : Root) (s : NodeState) : Acked := ⟨content r s.disk, fun _ => false⟩

theorem Mounted.stored (h : Mounted r s) : Stored r s (Acked.mounted r s) where
  shelf := h.shelf
  file := rfl
  queue f hf := by
    rw [h.queue] at hf
    cases hf
  fresh fd hd hfd := by
    rw [h.fds fd] at hfd
    cases hfd
  handle fd hd q hfd := by
    rw [h.fds fd] at hfd
    cases hfd

/-- **Writes and eviction.** Along a run of a single node, opening and reading returns everything
that has been acknowledged exactly when no write goes through the handle of a file that has been
moved since it was opened. -/
theorem acked_returned_iff (r : Root) {s : NodeState} (hs : Mounted r s) (ops : List LocalOp) :
    Always (ackedStep r) (Returned r) (s, Acked.mounted r s) ops ↔
      EachStep (ackedStep r) (WritesThrough r) (s, Acked.mounted r s) ops := by
  have hsplit : ∀ (x x' : NodeState × Acked) op, ackedStep r x op = some x' →
      localStep r x.1 op = some x'.1 ∧ x'.2 = ack r x.1 x.2 op := by
    intro x x' op hstep
    obtain ⟨s', hlocal, rfl⟩ := Option.map_eq_some_iff.mp hstep
    exact ⟨hlocal, rfl⟩
  apply always_iff_eachStep (I := fun x => Stored r x.1 x.2)
  · exact fun x hx => hx.returned
  · rintro ⟨s, w⟩ op ⟨s', w'⟩ hx hstep hg
    obtain ⟨hlocal, rfl⟩ := hsplit _ _ op hstep
    exact hx.step hlocal hg
  · rintro ⟨s, w⟩ op ⟨s', w'⟩ hx hstep hret
    obtain ⟨hlocal, rfl⟩ := hsplit _ _ op hstep
    cases op with
    | write fd off buf => exact hx.writesThrough hlocal hret
    | _ => trivial
  · exact hs.stored

/-- A node that has just been mounted over empty devices. -/
def emptyNode : NodeState := ⟨⟨fun _ => none, fun _ => false, fun _ => [], 0⟩, [], fun _ => none, 0⟩

theorem emptyNode_mounted (r : Root) : Mounted r emptyNode where
  shelf := by
    refine ⟨fun _ => placed_absent, fun _ _ => rfl, ?_, ?_⟩
    · intro path i hi
      cases hi
    · intro p q i hp
      cases hp
  queue := rfl
  fds _ := rfl

/-- Creating `/g` moves `/f`, which is opened again before it is written to. -/
def openedAgain : List LocalOp :=
  [.create [] (filePath "/f" path_f), .write 0 0 (cstr "x"),
    .create [true] (filePath "/g" path_g), .open [true] (filePath "/f" path_f) .rdwr,
    .write 2 1 (cstr "y"), .release 0]

theorem acked_returned_iff_openedAgain : Always (ackedStep twoNodes.root) (Returned twoNodes.root)
    (emptyNode, Acked.mounted twoNodes.root emptyNode) openedAgain := by
  have hguard : Guarded (ackedStep twoNodes.root) (WritesThrough twoNodes.root)
      (emptyNode, Acked.mounted twoNodes.root emptyNode) openedAgain := by decide +kernel
  exact (acked_returned_iff twoNodes.root (emptyNode_mounted twoNodes.root) openedAgain).mpr
    hguard.eachStep

/-- Here `/f` is written to through the first handle, after the move. -/
def writtenAfterMove : List LocalOp :=
  [.create [] (filePath "/f" path_f), .write 0 0 (cstr "x"),
    .create [true] (filePath "/g" path_g), .write 0 1 (cstr "y"), .release 0]

/-- The second write is acknowledged, and the file read again is without it. -/
theorem not_acked_returned : ¬Always (ackedStep twoNodes.root) (Returned twoNodes.root)
    (emptyNode, Acked.mounted twoNodes.root emptyNode) writtenAfterMove := by
  intro hall
  have htest : (run (ackedStep twoNodes.root) (emptyNode, Acked.mounted twoNodes.root emptyNode)
      writtenAfterMove).any (fun x => decide (x.2.file (cstr "/f") = some (cstr "xy") ∧
        ((fusionOpen twoNodes.root [] (filePath "/f" (by decide)) .rdonly x.1).1.bind fun fd =>
          fusionRead fd 0 2 (fusionOpen twoNodes.root [] (filePath "/f" (by decide)) .rdonly x.1).2)
            = some (cstr "x"))) = true := by decide +kernel
  obtain ⟨x, hrun, hx⟩ := exists_run_of_any htest
  obtain ⟨hacked, hread⟩ := of_decide_eq_true hx
  rw [← List.append_nil writtenAfterMove] at hall
  obtain ⟨fd, s, hopen, hreturned⟩ := hall.reached hrun (filePath "/f" (by decide)) _ hacked [] .rdonly
  rw [hopen, Option.bind_some, hreturned 0 2 (by decide)] at hread
  exact absurd hread (by decide)

end Copying

end FusionFS
