import FusionFS.Cluster
import FusionFS.DiskSlots

/-!
# What one operation can do

Each operation changes the two places of one file on one or two nodes, the store at the keys of that
file and of its parent, and moves the files the eviction loop takes out of the queue. The lemmas say
so once; what holds along runs is derived from them.
-/

namespace FusionFS

open SecondChance

variable {Node : Type} [DecidableEq Node]

namespace Cluster

variable (c : Cluster Node) (n m : Node)

section Fields

variable (z : Zht) (d : Disk) (q : Queue Bytes) (fd : Nat) (h : Option Handle)

omit [DecidableEq Node] in
@[simp]
theorem zht_setZht : (c.setZht z).zht = z := rfl

omit [DecidableEq Node] in
@[simp]
theorem node_setZht : (c.setZht z).node = c.node := rfl

omit [DecidableEq Node] in
@[simp]
theorem disk_setZht : (c.setZht z).disk m = c.disk m := rfl

@[simp]
theorem zht_setDisk : (c.setDisk n d).zht = c.zht := rfl

@[simp]
theorem disk_setDisk_self : (c.setDisk n d).disk n = d := by simp [setDisk, setNode, disk]

@[simp]
theorem disk_setDisk_of_ne (hm : m ≠ n) : (c.setDisk n d).disk m = c.disk m := by
  simp [setDisk, setNode, disk, hm]

@[simp]
theorem queue_setDisk : ((c.setDisk n d).node m).queue = (c.node m).queue := by
  by_cases hm : m = n
  · subst hm
    simp [setDisk, setNode]
  · simp [setDisk, setNode, hm]

@[simp]
theorem fds_setDisk : ((c.setDisk n d).node m).fds = (c.node m).fds := by
  by_cases hm : m = n
  · subst hm
    simp [setDisk, setNode]
  · simp [setDisk, setNode, hm]

@[simp]
theorem nextFd_setDisk : ((c.setDisk n d).node m).nextFd = (c.node m).nextFd := by
  by_cases hm : m = n
  · subst hm
    simp [setDisk, setNode]
  · simp [setDisk, setNode, hm]

@[simp]
theorem zht_setQueue : (c.setQueue n q).zht = c.zht := rfl

@[simp]
theorem disk_setQueue : (c.setQueue n q).disk m = c.disk m := by
  by_cases hm : m = n
  · subst hm
    simp [setQueue, setNode, disk]
  · simp [setQueue, setNode, disk, hm]

@[simp]
theorem queue_setQueue_self : ((c.setQueue n q).node n).queue = q := by simp [setQueue, setNode]

@[simp]
theorem queue_setQueue_of_ne (hm : m ≠ n) : ((c.setQueue n q).node m).queue = (c.node m).queue := by
  simp [setQueue, setNode, hm]

@[simp]
theorem fds_setQueue : ((c.setQueue n q).node m).fds = (c.node m).fds := by
  by_cases hm : m = n
  · subst hm
    simp [setQueue, setNode]
  · simp [setQueue, setNode, hm]

@[simp]
theorem nextFd_setQueue : ((c.setQueue n q).node m).nextFd = (c.node m).nextFd := by
  by_cases hm : m = n
  · subst hm
    simp [setQueue, setNode]
  · simp [setQueue, setNode, hm]

@[simp]
theorem zht_setHandle : (c.setHandle n fd h).zht = c.zht := rfl

@[simp]
theorem disk_setHandle : (c.setHandle n fd h).disk m = c.disk m := by
  by_cases hm : m = n
  · subst hm
    simp [setHandle, setNode, disk]
  · simp [setHandle, setNode, disk, hm]

@[simp]
theorem queue_setHandle : ((c.setHandle n fd h).node m).queue = (c.node m).queue := by
  by_cases hm : m = n
  · subst hm
    simp [setHandle, setNode]
  · simp [setHandle, setNode, hm]

@[simp]
theorem fds_setHandle_self :
    ((c.setHandle n fd h).node n).fds = Function.update (c.node n).fds fd h := by
  simp [setHandle, setNode]

@[simp]
theorem nextFd_setHandle : ((c.setHandle n fd h).node m).nextFd = (c.node m).nextFd := by
  by_cases hm : m = n
  · subst hm
    simp [setHandle, setNode]
  · simp [setHandle, setNode, hm]

end Fields

section AddHandle

variable (h : Handle)

@[simp]
theorem addHandle_fst : (c.addHandle n h).1 = (c.node n).nextFd := rfl

@[simp]
theorem zht_addHandle : (c.addHandle n h).2.zht = c.zht := rfl

@[simp]
theorem disk_addHandle : (c.addHandle n h).2.disk m = c.disk m := by
  by_cases hm : m = n
  · subst hm
    simp [addHandle, setHandle, setNode, disk]
  · simp [addHandle, setHandle, setNode, disk, hm]

@[simp]
theorem queue_addHandle : ((c.addHandle n h).2.node m).queue = (c.node m).queue := by
  by_cases hm : m = n
  · subst hm
    simp [addHandle, setHandle, setNode]
  · simp [addHandle, setHandle, setNode, hm]

@[simp]
theorem fds_addHandle_self : ((c.addHandle n h).2.node n).fds
    = Function.update (c.node n).fds (c.node n).nextFd (some h) := by
  simp [addHandle, setHandle, setNode]

@[simp]
theorem nextFd_addHandle_self : ((c.addHandle n h).2.node n).nextFd = (c.node n).nextFd + 1 := by
  simp [addHandle, setNode]

end AddHandle

theorem setDisk_self : c.setDisk n (c.disk n) = c := by
  simp [setDisk, setNode, disk]

theorem setDisk_setQueue (d : Disk) (q : Queue Bytes) :
    (c.setQueue n q).setDisk n d = (c.setDisk n d).setQueue n q := by
  simp [setDisk, setQueue, setNode]

theorem setQueue_setQueue (q q' : Queue Bytes) :
    (c.setQueue n q).setQueue n q' = c.setQueue n q' := by
  simp [setQueue, setNode]

theorem setQueue_self : c.setQueue n (c.node n).queue = c := by
  simp [setQueue, setNode]

theorem setZht_setQueue (z : Zht) (q : Queue Bytes) :
    (c.setQueue n q).setZht z = (c.setZht z).setQueue n q := rfl

end Cluster

/-! ### The eviction loop -/

/-- The names the eviction loop takes out of a queue, and the queue it leaves. -/
def victims : List Bool → Queue Bytes → List Bytes × Queue Bytes
  | true :: full, q =>
      match remque q with
      | some (fname, rest) => (fname :: (victims full rest).1, (victims full rest).2)
      | none => ([], q)
  | _, q => ([], q)

theorem names_perm_of_victims (full : List Bool) (q : Queue Bytes) :
    (names q).Perm ((victims full q).1 ++ names (victims full q).2) := by
  induction full generalizing q with
  | nil => exact List.Perm.refl _
  | cons b full ih =>
      cases b with
      | false => exact List.Perm.refl _
      | true =>
          rw [victims]
          cases hq : remque q with
          | none => exact List.Perm.refl _
          | some res =>
              obtain ⟨fname, rest⟩ := res
              exact (names_perm_of_remque hq).trans ((ih rest).cons fname)

theorem mem_names_of_mem_victims {full : List Bool} {q : Queue Bytes} {fname : Bytes}
    (h : fname ∈ (victims full q).1) : fname ∈ names q :=
  (names_perm_of_victims full q).mem_iff.mpr (List.mem_append_left _ h)

theorem mem_names_of_mem_left {full : List Bool} {q : Queue Bytes} {fname : Bytes}
    (h : fname ∈ names (victims full q).2) : fname ∈ names q :=
  (names_perm_of_victims full q).mem_iff.mpr (List.mem_append_right _ h)

variable (net : Net Node)

/-- The bodies of the eviction loop, one after the other. -/
def evictAll (n : Node) (fnames : List Bytes) (c : Cluster Node) : Cluster Node :=
  fnames.foldl (fun c fname => evictFile net n fname c) c

theorem evictFile_setQueue (n : Node) (fname : Bytes) (q : Queue Bytes) (c : Cluster Node) :
    evictFile net n fname (c.setQueue n q) = (evictFile net n fname c).setQueue n q := by
  simp [evictFile, Cluster.setDisk_setQueue, Cluster.setZht_setQueue]

theorem evictAll_setQueue (n : Node) (fnames : List Bytes) (q : Queue Bytes) (c : Cluster Node) :
    evictAll net n fnames (c.setQueue n q) = (evictAll net n fnames c).setQueue n q := by
  induction fnames generalizing c with
  | nil => rfl
  | cons fname fnames ih =>
      rw [evictAll, List.foldl_cons, evictFile_setQueue]
      exact ih (evictFile net n fname c)

theorem evictLoop_eq (n : Node) (full : List Bool) (c : Cluster Node) :
    evictLoop net n full c = (evictAll net n (victims full (c.node n).queue).1 c).setQueue n
      (victims full (c.node n).queue).2 := by
  induction full generalizing c with
  | nil => exact (c.setQueue_self n).symm
  | cons b full ih =>
      cases b with
      | false => exact (c.setQueue_self n).symm
      | true =>
          rw [evictLoop, victims]
          cases hq : remque (c.node n).queue with
          | none => exact (c.setQueue_self n).symm
          | some res =>
              obtain ⟨fname, rest⟩ := res
              simp only
              rw [evictFile_setQueue, ih, Cluster.queue_setQueue_self, evictAll_setQueue,
                Cluster.setQueue_setQueue]
              rfl

/-- The places of a file on a node. -/
def Cluster.slot (net : Net Node) (c : Cluster Node) (n : Node) (path : Bytes) : Slot :=
  (c.disk n).slot net.root path

variable {net}

omit [DecidableEq Node] in
theorem ip_inj {m n : Node} (h : net.ip m = net.ip n) : m = n := by
  have := (net.host_iff (net.ip m) n).mpr h
  rw [(net.host_iff (net.ip m) m).mpr rfl] at this
  exact Option.some.inj this

/-- The files that the eviction of `fnames` on `n` moves, and the keys it writes. -/
structure Evicted (net : Net Node) (n : Node) (fnames : List Bytes) (c c' : Cluster Node) :
    Prop where
  zht : ∀ key, c'.zht key = if key ∈ fnames then some (net.ip n ++ [slash]) else c.zht key
  other : ∀ m, m ≠ n → c'.node m = c.node m
  fds : (c'.node n).fds = (c.node n).fds
  nextFd : (c'.node n).nextFd = (c.node n).nextFd
  sane : (c'.disk n).Sane net.root
  dir : (c'.disk n).dir = (c.disk n).dir
  data : (c'.disk n).data = (c.disk n).data
  nextIno : (c'.disk n).nextIno = (c.disk n).nextIno
  kept : ∀ path, net.root.fullpath path ∉ fnames → c'.slot net n path = c.slot net n path
  holds : ∀ path, (c'.slot net n path).Holds ↔ (c.slot net n path).Holds
  ino : ∀ path i, (c.slot net n path).ino = some i → (c'.slot net n path).ino = some i
  link : ∀ path, (c.disk n).dir (net.root.fullpath path) = false →
    (net.root.fullpath path ∈ fnames ∨ ∃ t, (c.slot net n path).ssd = some (.link t)) →
      ∃ t, (c'.slot net n path).ssd = some (.link t)

omit [DecidableEq Node] in
theorem Evicted.refl {n : Node} {c : Cluster Node} (h : (c.disk n).Sane net.root) :
    Evicted net n [] c c :=
  ⟨fun _ => by simp, fun _ _ => rfl, rfl, rfl, h, rfl, rfl, rfl, fun _ _ => rfl,
    fun _ => Iff.rfl, fun _ _ hi => hi, fun _ _ hl => by simpa using hl⟩

theorem Slot.link_of_evicted {s : Slot} {target : Bytes} :
    (s.evicted target false).ssd = some (.link target) := by
  obtain ⟨ssd, hdd⟩ := s
  cases ssd with
  | none => rfl
  | some e =>
      cases e with
      | file i => rfl
      | link t =>
          cases hdd with
          | none => rfl
          | some e => cases e <;> rfl

theorem Slot.ino_evicted {s : Slot} {target : Bytes} {isDir : Bool} {i : Nat}
    (h : s.ino = some i) : (s.evicted target isDir).ino = some i := by
  obtain ⟨ssd, hdd⟩ := s
  cases ssd with
  | none => simp [Slot.ino] at h
  | some e =>
      cases e with
      | file j => exact h
      | link t =>
          cases hdd with
          | none => simp [Slot.ino] at h
          | some e =>
              cases e with
              | file j => exact h
              | link u => simp [Slot.ino] at h

theorem evictFile_spec {n : Node} {c : Cluster Node} (h : (c.disk n).Sane net.root) (path : Bytes) :
    Evicted net n [net.root.fullpath path] c (evictFile net n (net.root.fullpath path) c) := by
  have hm := h.moved_moveFileSsd path
  have hdisk : (evictFile net n (net.root.fullpath path) c).disk n
      = moveFileSsd (c.disk n) (net.root.fullpath path) := by simp [evictFile]
  have hslot : ∀ q, (evictFile net n (net.root.fullpath path) c).slot net n q
      = (moveFileSsd (c.disk n) (net.root.fullpath path)).slot net.root q := by
    intro q
    rw [Cluster.slot, hdisk]
  refine ⟨?_, ?_, by simp [evictFile], by simp [evictFile],
    hdisk ▸ h.moveFileSsd path, hdisk ▸ hm.dir, hdisk ▸ hm.data, hdisk ▸ hm.nextIno, ?_, ?_, ?_, ?_⟩
  · intro key
    by_cases hkey : key = net.root.fullpath path
    · subst hkey
      simp [evictFile, zhtUpdate_eq_insert]
    · simp [evictFile, zhtUpdate_eq_insert, hkey]
  · intro m hmn
    simp [evictFile, Cluster.setDisk, Cluster.setNode, hmn]
  · intro q hq
    rw [hslot, hm.elsewhere (by simpa using hq)]
    rfl
  · intro q
    rw [hslot]
    by_cases hq : q = path
    · subst hq
      rw [hm.at, Slot.holds_evicted]
      rfl
    · rw [hm.elsewhere hq]
      rfl
  · intro q i hi
    rw [hslot]
    by_cases hq : q = path
    · subst hq
      rw [hm.at]
      exact Slot.ino_evicted hi
    · rw [hm.elsewhere hq]
      exact hi
  · intro q hdir hl
    rw [hslot]
    by_cases hq : q = path
    · subst hq
      rw [hm.at, hdir]
      exact ⟨_, Slot.link_of_evicted⟩
    · rw [hm.elsewhere hq]
      rcases hl with hmem | hl
      · exact absurd (net.root.fullpath_inj.mp (List.mem_singleton.mp hmem)) hq
      · exact hl

omit [DecidableEq Node] in
theorem Evicted.trans {n : Node} {fs gs : List Bytes} {c c' c'' : Cluster Node}
    (h : Evicted net n fs c c') (h' : Evicted net n gs c' c'') : Evicted net n (fs ++ gs) c c'' where
  zht := by
    intro key
    rw [h'.zht, h.zht]
    by_cases hg : key ∈ gs <;> by_cases hf : key ∈ fs <;> simp [hg, hf]
  other := fun m hm => (h'.other m hm).trans (h.other m hm)
  fds := h'.fds.trans h.fds
  nextFd := h'.nextFd.trans h.nextFd
  sane := h'.sane
  dir := h'.dir.trans h.dir
  data := h'.data.trans h.data
  nextIno := h'.nextIno.trans h.nextIno
  kept := by
    intro path hpath
    rw [List.mem_append, not_or] at hpath
    rw [h'.kept path hpath.2, h.kept path hpath.1]
  holds := fun path => (h'.holds path).trans (h.holds path)
  ino := fun path i hi => h'.ino path i (h.ino path i hi)
  link := by
    intro path hdir hl
    refine h'.link path (by rwa [h.dir]) ?_
    by_cases hg : net.root.fullpath path ∈ gs
    · exact Or.inl hg
    · refine Or.inr (h.link path hdir ?_)
      rcases hl with hmem | hl
      · exact Or.inl ((List.mem_append.mp hmem).resolve_right hg)
      · exact Or.inr hl

theorem evictAll_spec {n : Node} {fnames : List Bytes} {c : Cluster Node}
    (h : (c.disk n).Sane net.root)
    (hnames : ∀ f ∈ fnames, ∃ p : FilePath, f = net.root.fullpath p.bytes) :
    Evicted net n fnames c (evictAll net n fnames c) := by
  induction fnames generalizing c with
  | nil => exact Evicted.refl h
  | cons f fnames ih =>
      obtain ⟨p, rfl⟩ := hnames f List.mem_cons_self
      have hone := evictFile_spec h p.bytes
      exact hone.trans (ih hone.sane fun f hf => hnames f (List.mem_cons_of_mem _ hf))

theorem Evicted.setQueue {n : Node} {fs : List Bytes} {c c' : Cluster Node}
    (h : Evicted net n fs c c') (q : Queue Bytes) : Evicted net n fs c (c'.setQueue n q) := by
  refine ⟨h.zht, fun m hm => ?_, by simpa using h.fds, by simpa using h.nextFd, by simpa using h.sane,
    by simpa using h.dir, by simpa using h.data, by simpa using h.nextIno,
    by simpa [Cluster.slot] using h.kept, by simpa [Cluster.slot] using h.holds,
    by simpa [Cluster.slot] using h.ino, by simpa [Cluster.slot] using h.link⟩
  simpa [Cluster.setQueue, Cluster.setNode, hm] using h.other m hm

/-- Disks are sane, and the cache holds the SSD paths of files. -/
structure Sound (net : Net Node) (c : Cluster Node) : Prop where
  sane : ∀ n, (c.disk n).Sane net.root
  queue : ∀ n, ∀ f ∈ names (c.node n).queue, ∃ p : FilePath, f = net.root.fullpath p.bytes

theorem Sound.evictLoop {c : Cluster Node} (h : Sound net c) (n : Node) (full : List Bool) :
    Evicted net n (victims full (c.node n).queue).1 c (evictLoop net n full c) ∧
      ((evictLoop net n full c).node n).queue = (victims full (c.node n).queue).2 := by
  rw [evictLoop_eq]
  refine ⟨Evicted.setQueue (evictAll_spec (h.sane n) fun f hf => ?_) _,
    Cluster.queue_setQueue_self _ _ _⟩
  exact h.queue n f (mem_names_of_mem_victims hf)

theorem Sound.setDisk {c : Cluster Node} (h : Sound net c) {n : Node} {d : Disk}
    (hd : d.Sane net.root) : Sound net (c.setDisk n d) := by
  refine ⟨fun m => ?_, fun m f hf => h.queue m f (by simpa using hf)⟩
  by_cases hm : m = n
  · subst hm
    simpa using hd
  · simpa [hm] using h.sane m

theorem Sound.setQueue {c : Cluster Node} (h : Sound net c) {n : Node} {q : Queue Bytes}
    (hq : ∀ f ∈ names q, ∃ p : FilePath, f = net.root.fullpath p.bytes) :
    Sound net (c.setQueue n q) := by
  refine ⟨fun m => by simpa using h.sane m, fun m f hf => ?_⟩
  by_cases hm : m = n
  · subst hm
    exact hq f (by simpa using hf)
  · exact h.queue m f (by simpa [hm] using hf)

theorem Sound.setHandle {c : Cluster Node} (h : Sound net c) (n : Node) (fd : Nat)
    (hd : Option Handle) : Sound net (c.setHandle n fd hd) :=
  ⟨fun m => by simpa using h.sane m, fun m f hf => h.queue m f (by simpa using hf)⟩

omit [DecidableEq Node] in
theorem Sound.setZht {c : Cluster Node} (h : Sound net c) (z : Zht) : Sound net (c.setZht z) :=
  ⟨h.sane, h.queue⟩

omit [DecidableEq Node] in
theorem Sound.of_evicted {c c' : Cluster Node} (h : Sound net c) {n : Node} {fs : List Bytes}
    (hev : Evicted net n fs c c')
    (hq : ∀ f ∈ names (c'.node n).queue, f ∈ names (c.node n).queue) : Sound net c' := by
  refine ⟨fun m => ?_, fun m f hf => ?_⟩
  · by_cases hm : m = n
    · exact hm ▸ hev.sane
    · rw [Cluster.disk, hev.other m hm]
      exact h.sane m
  · by_cases hm : m = n
    · subst hm
      exact h.queue m f (hq f hf)
    · rw [hev.other m hm] at hf
      exact h.queue m f hf

theorem Cluster.slot_setDisk_self (c : Cluster Node) (n : Node) (d : Disk) (q : Bytes) :
    (c.setDisk n d).slot net n q = d.slot net.root q := by
  simp [Cluster.slot]

theorem Cluster.slot_setDisk_of_ne (c : Cluster Node) {n m : Node} (hm : m ≠ n) (d : Disk)
    (q : Bytes) : (c.setDisk n d).slot net m q = c.slot net m q := by
  simp [Cluster.slot, hm]

/-! ### Transfers -/

variable (net) in
/-- A removal on another node takes away one of the two places of the file. -/
theorem ffsRmfile_cases (addr path : Bytes) (hddFlag : Bool) (c : Cluster Node) :
    (net.host addr = none ∧
      ffsRmfile net addr (remotePath (net.root.fullpath path) hddFlag) c = c) ∨
    ∃ m d, net.host addr = some m ∧
      ffsRmfile net addr (remotePath (net.root.fullpath path) hddFlag) c = c.setDisk m d ∧
      Disk.Moved net.root (c.disk m) d path (if hddFlag then { c.slot net m path with hdd := none }
        else { c.slot net m path with ssd := none }) := by
  unfold ffsRmfile remotePath
  cases hhost : net.host addr with
  | none => exact Or.inl ⟨rfl, rfl⟩
  | some m =>
      refine Or.inr ⟨m, _, rfl, rfl, ?_⟩
      cases hddFlag with
      | true =>
          rw [if_pos rfl, if_pos rfl, net.root.getHddPath_fullpath]
          exact Disk.moved_setEntry_hdd (c.disk m) path none
      | false => exact Disk.moved_setEntry_ssd (c.disk m) path none

theorem Sound.ffsRmfile {c : Cluster Node} (h : Sound net c) (addr path : Bytes) (hddFlag : Bool) :
    Sound net (FusionFS.ffsRmfile net addr (remotePath (net.root.fullpath path) hddFlag) c) := by
  unfold FusionFS.ffsRmfile remotePath
  cases net.host addr with
  | none => exact h
  | some m =>
      refine h.setDisk ?_
      cases hddFlag with
      | true =>
          rw [if_pos rfl, net.root.getHddPath_fullpath]
          exact (h.sane m).unlink_hdd path
      | false => exact (h.sane m).unlink_ssd path

/-- A transfer does nothing, or leaves on the local disk a file with the contents of a remote one. -/
theorem Sound.ffsRecvfile_cases {c : Cluster Node} (h : Sound net c) (n : Node)
    (addr remote path : Bytes) :
    ffsRecvfile net n addr remote (net.root.fullpath path) c = c ∨
      ∃ m j i d, net.host addr = some m ∧ (c.disk m).openIno remote = some j ∧
        ffsRecvfile net n addr remote (net.root.fullpath path) c = c.setDisk n d ∧
        Disk.Written net.root (c.disk n) d path i ((c.disk m).data j) := by
  unfold ffsRecvfile
  cases hhost : net.host addr with
  | none => exact Or.inl rfl
  | some m =>
      cases hino : (c.disk m).openIno remote with
      | none => exact Or.inl (by simp [hino])
      | some j =>
          rcases (h.sane n).written_store path ((c.disk m).data j) with heq | ⟨i, hw⟩
          · left
            simp only [hino, heq]
            exact Cluster.setDisk_self c n
          · exact Or.inr ⟨m, j, i, _, rfl, hino, by simp [hino], hw⟩

/-! ### The operations one by one -/

section Operations

variable {c c' : Cluster Node} {n : Node} {full : List Bool} {junk : Bytes} {path : FilePath}

/-- `fusion_create`: eviction, a file at the path, a descriptor, a place in the queue, and the
entry in the store. -/
theorem Sound.create (h : Sound net c) {fd : Nat}
    (hc : fusionCreate net n full path c = some (fd, c')) :
    ∃ c₁ ino, Evicted net n (victims full (c.node n).queue).1 c c₁ ∧
      Disk.Written net.root (c₁.disk n) (c'.disk n) path.bytes ino [] ∧
      (∀ m, m ≠ n → c'.node m = c.node m) ∧ fd = (c.node n).nextFd ∧
      (c'.node n).queue
        = insque (net.root.fullpath path.bytes) (victims full (c.node n).queue).2 ∧
      (c'.node n).fds = Function.update (c.node n).fds fd (some ⟨path, ino, .wronly⟩) ∧
      (c'.node n).nextFd = (c.node n).nextFd + 1 ∧
      c'.zht = createEntry c₁.zht path.bytes (net.ip n) := by
  obtain ⟨hev, hqueue⟩ := h.evictLoop n full
  rw [fusionCreate] at hc
  generalize FusionFS.evictLoop net n full c = c₁ at hc hev hqueue
  cases hcreat : (c₁.disk n).creat (net.root.fullpath path.bytes) with
  | none => simp [hcreat] at hc
  | some res =>
      obtain ⟨ino, d⟩ := res
      simp only [hcreat, Option.bind_eq_bind, Option.bind_some, Option.some.injEq,
        Prod.mk.injEq] at hc
      obtain ⟨hfd, rfl⟩ := hc
      refine ⟨c₁, ino, hev, by simpa using hev.sane.written_creat hcreat, fun m hm => ?_, ?_, ?_, ?_,
        ?_, rfl⟩
      · rw [← hev.other m hm]
        simp [Cluster.setQueue, Cluster.addHandle, Cluster.setHandle, Cluster.setDisk,
          Cluster.setNode, hm]
      · rw [← hfd]
        simp [hev.nextFd]
      · simp [hqueue]
      · rw [← hfd]
        simp [hev.fds, hev.nextFd]
      · simp [hev.nextFd]

/-- What `fusion_open` does before it opens the file: nothing, or eviction and promotion. -/
def Promotion (net : Net Node) (n : Node) (full : List Bool) (path : Bytes) (c c₁ : Cluster Node)
    (q : Queue Bytes) : Prop :=
  (isSymlinkSsd (c.disk n) (net.root.fullpath path) = false ∧ c₁ = c ∧ q = (c.node n).queue) ∨
  (isSymlinkSsd (c.disk n) (net.root.fullpath path) = true ∧
    q = (victims full (c.node n).queue).2 ∧
    ∃ c₀ d, Evicted net n (victims full (c.node n).queue).1 c c₀ ∧ c₁ = c₀.setDisk n d ∧
      Disk.Moved net.root (c₀.disk n) d path (c₀.slot net n path).promoted ∧ d.Sane net.root ∧
      ∃ t, (c₀.slot net n path).ssd = some (.link t))

theorem openCached_spec {c₁ : Cluster Node} {fd : Nat} {mode : OpenMode}
    (hsane : (c₁.disk n).Sane net.root) (hc : openCached net n path mode c₁ = some (fd, c')) :
    ∃ ino, (c₁.slot net n path.bytes).ino = some ino ∧ (∀ m, c'.disk m = c₁.disk m) ∧
      c'.zht = c₁.zht ∧ (∀ m, m ≠ n → c'.node m = c₁.node m) ∧ fd = (c₁.node n).nextFd ∧
      (c'.node n).queue = insque (net.root.fullpath path.bytes) (c₁.node n).queue ∧
      (c'.node n).fds = Function.update (c₁.node n).fds fd (some ⟨path, ino, mode⟩) ∧
      (c'.node n).nextFd = (c₁.node n).nextFd + 1 := by
  rw [openCached, hsane.openIno_fullpath] at hc
  cases hino : ((c₁.disk n).slot net.root path.bytes).ino with
  | none => simp [hino] at hc
  | some ino =>
      simp only [hino, Option.bind_eq_bind, Option.bind_some, Option.some.injEq,
        Prod.mk.injEq] at hc
      obtain ⟨hfd, rfl⟩ := hc
      refine ⟨ino, hino, fun m => by simp, rfl, fun m hm => ?_, hfd.symm, by simp, by simp [← hfd],
        by simp⟩
      simp [Cluster.setQueue, Cluster.addHandle, Cluster.setHandle, Cluster.setNode, hm]

/-- `fusion_open`: the file on the SSD again if it was moved, a descriptor, and a place in the
queue. -/
theorem Sound.open (h : Sound net c) {fd : Nat} {mode : OpenMode}
    (hc : fusionOpen net n full path mode c = some (fd, c')) :
    ∃ c₁ q ino, Promotion net n full path.bytes c c₁ q ∧
      (c₁.slot net n path.bytes).ino = some ino ∧ (∀ m, c'.disk m = c₁.disk m) ∧
      c'.zht = c₁.zht ∧ (∀ m, m ≠ n → c'.node m = c.node m) ∧ fd = (c.node n).nextFd ∧
      (c'.node n).queue = insque (net.root.fullpath path.bytes) q ∧
      (c'.node n).fds = Function.update (c.node n).fds fd (some ⟨path, ino, mode⟩) ∧
      (c'.node n).nextFd = (c.node n).nextFd + 1 := by
  simp only [fusionOpen] at hc
  cases hsym : isSymlinkSsd (c.disk n) (net.root.fullpath path.bytes) with
  | false =>
      rw [hsym, if_neg Bool.false_ne_true] at hc
      obtain ⟨ino, hspec⟩ := openCached_spec (h.sane n) hc
      exact ⟨c, _, ino, Or.inl ⟨hsym, rfl, rfl⟩, hspec⟩
  | true =>
      rw [if_pos hsym] at hc
      obtain ⟨hev, hqueue⟩ := h.evictLoop n full
      generalize FusionFS.evictLoop net n full c = c₀ at hc hev hqueue
      obtain ⟨t, ht⟩ := link_of_isSymlinkSsd hsym
      have hdir : (c.disk n).dir (net.root.fullpath path.bytes) = false :=
        (h.sane n).ssd_dir path.bytes (by rw [ht]; simp)
      have hlink := hev.link path.bytes hdir (Or.inr ⟨t, ht⟩)
      have hne : ((c₀.disk n).slot net.root path.bytes).ssd ≠ none := by
        obtain ⟨u, hu⟩ := hlink
        intro hnone
        rw [Cluster.slot, hnone] at hu
        cases hu
      have hsane := hev.sane.moveFileHdd hne
      obtain ⟨ino, hino, hdisk, hzht, hother, hfd, hq, hfds, hnext⟩ :=
        openCached_spec (by simpa using hsane) hc
      refine ⟨_, (victims full (c.node n).queue).2, ino, Or.inr ⟨hsym, rfl, c₀, _, hev, rfl,
        Disk.moved_moveFileHdd (c₀.disk n) path.bytes, hsane, hlink⟩, hino, hdisk, hzht,
        fun m hm => ?_, ?_, ?_, ?_, ?_⟩
      · rw [hother m hm, ← hev.other m hm]
        simp [Cluster.setDisk, Cluster.setNode, hm]
      · simpa [hev.nextFd] using hfd
      · simpa [hqueue] using hq
      · simpa [hev.fds] using hfds
      · simpa [hev.nextFd] using hnext

/-- `fusion_getattr`: at most a directory or a fetched file on the local disk. -/
theorem Sound.getattr (h : Sound net c) (n : Node) (junk p : Bytes) :
    (fusionGetattr net n junk p c).2 = c ∨
    (c.zht p = none ∧ (c.zht (p ++ [slash])).isSome ∧
      (fusionGetattr net n junk p c).2 = c.setDisk n ((c.disk n).mkdir (net.root.fullpath p))) ∨
    ∃ val m j i d, c.zht p = some val ∧
      ((c.disk n).access (net.root.fullpath p) = false ∨
        (p ≠ [slash] ∧ (realIp junk val).2 ≠ net.ip n)) ∧
      net.host (realIp junk val).2 = some m ∧
      (c.disk m).openIno (remotePath (net.root.fullpath p) (realIp junk val).1) = some j ∧
      (fusionGetattr net n junk p c).2 = c.setDisk n d ∧
      Disk.Written net.root (c.disk n) d p i ((c.disk m).data j) := by
  unfold fusionGetattr
  cases hz : c.zht p with
  | none =>
      cases hz' : c.zht (p ++ [slash]) with
      | none => exact Or.inl (by simp)
      | some v => exact Or.inr (Or.inl ⟨rfl, rfl, by simp⟩)
  | some val =>
      by_cases hfetch : (c.disk n).access (net.root.fullpath p) = false ∨
          (p ≠ [slash] ∧ (realIp junk val).2 ≠ net.ip n)
      · simp only [if_pos hfetch]
        rcases h.ffsRecvfile_cases n (realIp junk val).2
          (remotePath (net.root.fullpath p) (realIp junk val).1) p with heq | ⟨m, j, i, d, hm, hj, hd, hw⟩
        · exact Or.inl heq
        · exact Or.inr (Or.inr ⟨val, m, j, i, d, rfl, hfetch, hm, hj, hd, hw⟩)
      · simp only [if_neg hfetch]
        exact Or.inl trivial

/-- `fusion_release`: the descriptor goes; then nothing more, or the file is registered here and
removed there, or the local copy goes. -/
theorem release_cases {fd : Nat} (hc : fusionRelease net n full junk fd c = some c') :
    ∃ hd nodeaddr, (c.node n).fds fd = some hd ∧
      nodeaddr = realIp junk (zhtValue c.zht hd.path.bytes) ∧
      ((net.ip n = nodeaddr.2 ∧ c' = c.setHandle n fd none) ∨
      (net.ip n ≠ nodeaddr.2 ∧ hd.mode ≠ .rdonly ∧
        c' = publish net n full hd.path.bytes nodeaddr (c.setHandle n fd none)) ∨
      (net.ip n ≠ nodeaddr.2 ∧ hd.mode = .rdonly ∧
        c' = dropCopy net n hd.path.bytes (c.setHandle n fd none))) := by
  unfold fusionRelease at hc
  cases hfd : (c.node n).fds fd with
  | none => simp [hfd] at hc
  | some hd =>
      simp only [hfd, Option.bind_eq_bind, Option.bind_some] at hc
      refine ⟨hd, _, rfl, rfl, ?_⟩
      change (if net.ip n = (realIp junk (zhtValue c.zht hd.path.bytes)).2 then _ else _) = _ at hc
      by_cases hlocal : net.ip n = (realIp junk (zhtValue c.zht hd.path.bytes)).2
      · rw [if_pos hlocal, Option.some.injEq] at hc
        exact Or.inl ⟨hlocal, hc.symm⟩
      · rw [if_neg hlocal] at hc
        by_cases hmode : hd.mode = .rdonly
        · rw [if_neg (not_not_intro hmode), Option.some.injEq] at hc
          exact Or.inr (Or.inr ⟨hlocal, hmode, hc.symm⟩)
        · rw [if_pos hmode, Option.some.injEq] at hc
          exact Or.inr (Or.inl ⟨hlocal, hmode, hc.symm⟩)

theorem Sound.publish (h : Sound net c) (n : Node) (full : List Bool) (p : Bytes)
    (nodeaddr : Bool × Bytes) :
    ∃ c₁, c₁ = FusionFS.ffsRmfile net nodeaddr.2 (remotePath (net.root.fullpath p) nodeaddr.1)
        (c.setZht (zhtInsert c.zht p (net.ip n))) ∧ Sound net c₁ ∧
      (c₁.node n).queue = (c.node n).queue ∧
      Evicted net n (victims full (c.node n).queue).1 c₁
        (FusionFS.publish net n full p nodeaddr c) ∧
      ((FusionFS.publish net n full p nodeaddr c).node n).queue
        = (victims full (c.node n).queue).2 := by
  refine ⟨_, rfl, ?_⟩
  rw [FusionFS.publish, zhtUpdate_eq_insert]
  set c₀ := c.setZht (zhtInsert c.zht p (net.ip n)) with hc₀
  have hsound := (h.setZht (zhtInsert c.zht p (net.ip n))).ffsRmfile nodeaddr.2 p nodeaddr.1
  have hqueue : ((FusionFS.ffsRmfile net nodeaddr.2
      (remotePath (net.root.fullpath p) nodeaddr.1) c₀).node n).queue = (c.node n).queue := by
    rcases ffsRmfile_cases net nodeaddr.2 p nodeaddr.1 c₀ with ⟨-, heq⟩ | ⟨m, d, -, heq, -⟩
    · rw [heq, hc₀]
      simp
    · rw [heq, hc₀]
      simp
  obtain ⟨hev, hq⟩ := hsound.evictLoop n full
  rw [hqueue] at hev hq
  exact ⟨hsound, hqueue, hev, hq⟩

/-- `fusion_unlink` of a registered path: the entry goes from the store, and from one or two disks
the file. -/
theorem unlink_cases {ret : Int} (hc : fusionUnlink net n junk path c = some (ret, c')) :
    (c.zht path.bytes = none ∧ ret = -1 ∧ c' = c) ∨
    ∃ val z oldaddr c₁ c₂, c.zht path.bytes = some val ∧
      c₁ = (if isSymlinkSsd (c.disk n) (net.root.fullpath path.bytes)
        then c.setDisk n ((c.disk n).unlink (getHddPath (net.root.fullpath path.bytes))) else c) ∧
      zhtDelete c.zht path.dirname path.fname = some z ∧ oldaddr = realIp junk val ∧
      c₂ = (if net.ip n = oldaddr.2 then
          (c₁.setQueue n (rmelem (net.root.fullpath path.bytes) (c.node n).queue)).setZht
            (zhtRemove z path.bytes)
        else ffsRmfile net oldaddr.2 (remotePath (net.root.fullpath path.bytes) oldaddr.1)
          ((c₁.setQueue n (rmelem (net.root.fullpath path.bytes) (c.node n).queue)).setZht
            (zhtRemove z path.bytes))) ∧
      ret = (if ((c₂.disk n).entry (net.root.fullpath path.bytes)).isSome then 0 else enoent) ∧
      c' = c₂.setDisk n ((c₂.disk n).unlink (net.root.fullpath path.bytes)) := by
  unfold fusionUnlink at hc
  cases hz : c.zht path.bytes with
  | none =>
      simp only [hz, Option.some.injEq, Prod.mk.injEq] at hc
      exact Or.inl ⟨rfl, hc.1.symm, hc.2.symm⟩
  | some val =>
      simp only [hz] at hc
      right
      set c₁ := (if isSymlinkSsd (c.disk n) (net.root.fullpath path.bytes)
        then c.setDisk n ((c.disk n).unlink (getHddPath (net.root.fullpath path.bytes))) else c)
        with hc₁
      have hzht : c₁.zht = c.zht := by
        rw [hc₁]
        split <;> simp
      have hqueue : (c₁.node n).queue = (c.node n).queue := by
        rw [hc₁]
        split <;> simp
      cases hdel : zhtDelete c.zht path.dirname path.fname with
      | none => simp [hzht, hdel] at hc
      | some z =>
          have hval : zhtValue z path.bytes = val := by
            exact zhtValue_of_eq (by rw [zhtDelete_of_ne hdel (path.ne_dirname path), hz])
          simp only [Cluster.zht_setQueue, hzht, hdel, hqueue, hval, Option.bind_eq_bind,
            Option.bind_some, Option.some.injEq, Prod.mk.injEq] at hc
          exact ⟨val, z, realIp junk val, c₁, _, rfl, rfl, rfl, rfl, rfl, hc.1.symm, hc.2.symm⟩

theorem write_cases {fd off : Nat} {buf : Bytes} (hc : fusionWrite n fd off buf c = some c') :
    ∃ hd, (c.node n).fds fd = some hd ∧ hd.mode ≠ .rdonly ∧
      c' = c.setDisk n ((c.disk n).setData hd.ino (pwrite ((c.disk n).data hd.ino) off buf)) := by
  unfold fusionWrite at hc
  cases hfd : (c.node n).fds fd with
  | none => simp [hfd] at hc
  | some hd =>
      by_cases hmode : hd.mode = .rdonly
      · simp [hfd, hmode] at hc
      · simp only [hfd, Option.bind_eq_bind, Option.bind_some, if_neg hmode, Option.some.injEq] at hc
        exact ⟨hd, rfl, hmode, hc.symm⟩

theorem truncate_cases {size : Nat} (hc : fusionTruncate net n path size c = some c') :
    ∃ i, (c.disk n).openIno (if isSymlinkSsd (c.disk n) (net.root.fullpath path.bytes)
        then getHddPath (net.root.fullpath path.bytes) else net.root.fullpath path.bytes) = some i ∧
      c' = c.setDisk n ((c.disk n).setData i (resize ((c.disk n).data i) size)) := by
  unfold fusionTruncate at hc
  simp only [Option.bind_eq_bind, Option.bind_eq_some_iff, Option.some.injEq] at hc
  obtain ⟨i, hi, rfl⟩ := hc
  exact ⟨i, hi, rfl⟩

end Operations

/-! ### Soundness along runs -/

omit [DecidableEq Node] in
theorem Initial.sound {c : Cluster Node} (h : Initial c) : Sound net c where
  sane := fun n => ⟨fun path t ht => by simp [Disk.slot, h.entry n] at ht,
    fun path t ht => by simp [Disk.slot, h.entry n] at ht,
    fun path hne => by simp [Disk.slot, h.entry n] at hne⟩
  queue := fun n f hf => by simp [h.queue n] at hf

theorem Sound.setData {c : Cluster Node} (h : Sound net c) (n : Node) (i : Nat) (content : Bytes) :
    Sound net (c.setDisk n ((c.disk n).setData i content)) :=
  h.setDisk ⟨(h.sane n).ssd_link, (h.sane n).hdd_link, (h.sane n).ssd_dir⟩

theorem Sound.step {c c' : Cluster Node} (h : Sound net c) {op : Op Node}
    (hstep : step net c op = some c') : Sound net c' := by
  cases op with
  | create n full path =>
      obtain ⟨⟨fd, c''⟩, hc, rfl⟩ := Option.map_eq_some_iff.mp hstep
      obtain ⟨c₁, ino, hev, hw, hother, -, hq, -⟩ := h.create hc
      refine ⟨fun m => ?_, fun m f hf => ?_⟩
      · by_cases hm : m = n
        · exact hm ▸ hw.sane hev.sane
        · rw [Cluster.disk, hother m hm]
          exact h.sane m
      · by_cases hm : m = n
        · subst hm
          rw [hq] at hf
          rcases mem_names_insque.mp hf with rfl | hf
          · exact ⟨path, rfl⟩
          · exact h.queue m f (mem_names_of_mem_left hf)
        · rw [hother m hm] at hf
          exact h.queue m f hf
  | getattr n junk p =>
      cases hstep
      rcases h.getattr n junk p with heq | ⟨-, -, heq⟩ | ⟨_, _, _, _, d, -, -, -, -, heq, hw⟩
      · rwa [heq]
      · rw [heq]
        exact h.setDisk ((h.sane n).mkdir p)
      · rw [heq]
        exact h.setDisk (hw.sane (h.sane n))
  | «open» n full path mode =>
      obtain ⟨⟨fd, c''⟩, hc, rfl⟩ := Option.map_eq_some_iff.mp hstep
      obtain ⟨c₁, q, ino, hp, -, hdisk, -, hother, -, hq, -⟩ := h.open hc
      have hc₁ : (c₁.disk n).Sane net.root ∧ ∀ f ∈ names q, f ∈ names (c.node n).queue := by
        rcases hp with ⟨-, rfl, rfl⟩ | ⟨-, rfl, c₀, d, -, rfl, -, hsane, -⟩
        · exact ⟨h.sane n, fun f hf => hf⟩
        · exact ⟨by simpa using hsane, fun f hf => mem_names_of_mem_left hf⟩
      refine ⟨fun m => ?_, fun m f hf => ?_⟩
      · by_cases hm : m = n
        · subst hm
          exact hdisk m ▸ hc₁.1
        · rw [Cluster.disk, hother m hm]
          exact h.sane m
      · by_cases hm : m = n
        · subst hm
          rw [hq] at hf
          rcases mem_names_insque.mp hf with rfl | hf
          · exact ⟨path, rfl⟩
          · exact h.queue m f (hc₁.2 f hf)
        · rw [hother m hm] at hf
          exact h.queue m f hf
  | read n fd off size =>
      obtain ⟨_, -, rfl⟩ := Option.map_eq_some_iff.mp hstep
      exact h
  | write n fd off buf =>
      obtain ⟨hd, -, -, rfl⟩ := write_cases hstep
      exact h.setData n _ _
  | truncate n path size =>
      obtain ⟨i, -, rfl⟩ := truncate_cases hstep
      exact h.setData n _ _
  | release n full junk fd =>
      obtain ⟨hd, nodeaddr, -, -, hcase⟩ := release_cases hstep
      have hs := h.setHandle n fd none
      rcases hcase with ⟨-, rfl⟩ | ⟨-, -, rfl⟩ | ⟨-, -, rfl⟩
      · exact hs
      · obtain ⟨c₁, -, hs₁, hq₁, hev, hq⟩ := hs.publish n full hd.path.bytes nodeaddr
        refine hs₁.of_evicted hev fun f hf => ?_
        rw [hq₁]
        exact mem_names_of_mem_left (hq ▸ hf)
      · refine (hs.setDisk ((hs.sane n).unlink_ssd _)).setQueue fun f hf => ?_
        exact hs.queue n f (by simpa using (mem_names_rmelem.mp hf).1)
  | unlink n junk path =>
      obtain ⟨⟨ret, c''⟩, hc, rfl⟩ := Option.map_eq_some_iff.mp hstep
      rcases unlink_cases hc with ⟨-, -, rfl⟩ | ⟨val, z, oldaddr, c₁, c₂, -, hc₁, -, -, hc₂, -, rfl⟩
      · exact h
      · have hs₁ : Sound net c₁ := by
          rw [hc₁]
          split
          · rw [net.root.getHddPath_fullpath]
            exact h.setDisk ((h.sane n).unlink_hdd _)
          · exact h
        have hs₂ : Sound net c₂ := by
          have hq : Sound net ((c₁.setQueue n (rmelem (net.root.fullpath path.bytes)
              (c.node n).queue)).setZht (zhtRemove z path.bytes)) :=
            (hs₁.setQueue fun f hf => h.queue n f (mem_names_rmelem.mp hf).1).setZht _
          rw [hc₂]
          split
          · exact hq
          · exact hq.ffsRmfile _ _ _
        exact hs₂.setDisk ((hs₂.sane n).unlink_ssd _)

end FusionFS
