import FusionFS.Directories
import Mathlib.Data.Fintype.Defs

/-!
# What the cache holds

The cache of a node names files to be moved to the HDD. Another node takes files off the SSD without
a word to the cache, and a call that fails does not keep a name out of it; the loop that meets such a
name later makes a link to nothing. A file whose directory is missing on the HDD stays where it is.
-/

namespace FusionFS

open SecondChance Transition

namespace Directories

variable {Node : Type} [DecidableEq Node] {net : Net Node}

/-- Every name in the queue is that of a regular file on the disk. -/
def RealAt (d : Disk) (q : Queue Bytes) : Prop := ∀ fname ∈ names q, ∃ i, d.entry fname = some (.file i)

/-- Every name in a queue is that of a regular file on the SSD of the node. -/
def QueueReal (c : Cluster Node) : Prop := ∀ n, RealAt (c.disk n) (c.node n).queue

/-- Every victim is a regular file on the SSD when its turn comes, and is moved to the HDD. -/
def AllMove : Disk → List Bytes → Prop
  | _, [] => True
  | d, fname :: fnames => MovesFile d fname ∧ AllMove (moveFileSsd d fname) fnames

/-- The iterations of the eviction loop. -/
def LoopMoves (n : Node) (full : List Bool) (c : Cluster Node) : Prop :=
  AllMove (c.disk n) (victims full (c.node n).queue).1

/-- The loops that an operation runs, from the states they start in. -/
def EvictsFiles (net : Net Node) (c : Cluster Node) : Op Node → Prop
  | .create n full _ => LoopMoves n full c
  | .open n full path _ =>
      isSymlinkSsd (c.disk n) (net.root.fullpath path.bytes) = true → LoopMoves n full c
  | .release n full junk fd => ∀ h, (c.node n).fds fd = some h → h.mode ≠ .rdonly →
      ∀ nodeaddr, nodeaddr = realIp junk (zhtValue c.zht h.path.bytes) → net.ip n ≠ nodeaddr.2 →
        LoopMoves n full (ffsRmfile net nodeaddr.2
          (remotePath (net.root.fullpath h.path.bytes) nodeaddr.1)
          ((c.setHandle n fd none).setZht (zhtUpdate c.zht h.path.bytes (net.ip n))))
  | _ => True

/-- There is a place on the HDD for every victim. -/
def VictimsReady (n : Node) (full : List Bool) (c : Cluster Node) : Prop :=
  ∀ fname ∈ (victims full (c.node n).queue).1, Ready (c.disk n) fname

def RoomOnHdd (net : Net Node) (c : Cluster Node) : Op Node → Prop
  | .create n full _ => VictimsReady n full c
  | .open n full path _ =>
      isSymlinkSsd (c.disk n) (net.root.fullpath path.bytes) = true → VictimsReady n full c
  | .release n full junk fd => ∀ h, (c.node n).fds fd = some h → h.mode ≠ .rdonly →
      net.ip n ≠ (realIp junk (zhtValue c.zht h.path.bytes)).2 → VictimsReady n full c
  | _ => True

/-- No other node has the file that is taken off its SSD in its queue, and `fusion_create` and
`fusion_open` put nothing into the queue but the name of a file. -/
def SparesQueues (net : Net Node) (c : Cluster Node) : Op Node → Prop
  | .create n full path => net.root.fullpath path.bytes ∉ (victims full (c.node n).queue).1 ∧
      CanHold (c.disk n) (net.root.fullpath path.bytes)
  | .open n _ path _ => isSymlinkSsd (c.disk n) (net.root.fullpath path.bytes) = true ∨
      ∃ i, (c.disk n).entry (net.root.fullpath path.bytes) = some (.file i)
  | .release n _ junk fd => ∀ h, (c.node n).fds fd = some h → h.mode ≠ .rdonly →
      ∀ m, m ≠ n → realIp junk (zhtValue c.zht h.path.bytes) = (false, net.ip m) →
        net.root.fullpath h.path.bytes ∉ names (c.node m).queue
  | .unlink n junk path => ∀ val, c.zht path.bytes = some val →
      ∀ m, m ≠ n → realIp junk val = (false, net.ip m) →
        net.root.fullpath path.bytes ∉ names (c.node m).queue
  | _ => True

/-! ### The victims -/

variable {r : Root} {d d' : Disk} {fnames : List Bytes} {q : Queue Bytes} {full : List Bool}

/-- The names of different files on the SSD. -/
structure Files (r : Root) (d : Disk) (fnames : List Bytes) : Prop where
  nodup : fnames.Nodup
  named : ∀ f ∈ fnames, ∃ p, f = r.fullpath p
  file : ∀ f ∈ fnames, ∃ i, d.entry f = some (.file i)

/-- The disk after a loop: its victims are links, and all other places are as before. -/
structure Swept (r : Root) (fnames : List Bytes) (d d' : Disk) : Prop where
  tidy : Tidy r d'
  dir : d'.dir = d.dir
  link : ∀ f ∈ fnames, ∃ t, d'.entry f = some (.link t)
  kept : ∀ p, r.fullpath p ∉ fnames → d'.entry (r.fullpath p) = d.entry (r.fullpath p) ∧
    d'.entry (r.hddpath p) = d.entry (r.hddpath p)

theorem Files.tail {p : Bytes} (h : Files r d (r.fullpath p :: fnames))
    (hkept : ∀ q, q ≠ p → d'.entry (r.fullpath q) = d.entry (r.fullpath q)) : Files r d' fnames := by
  obtain ⟨hnot, hnodup⟩ := List.nodup_cons.mp h.nodup
  refine ⟨hnodup, fun f hf => h.named f (List.mem_cons_of_mem _ hf), fun f hf => ?_⟩
  obtain ⟨q, rfl⟩ := h.named f (List.mem_cons_of_mem _ hf)
  have hq : q ≠ p := by
    rintro rfl
    exact hnot hf
  rw [hkept q hq]
  exact h.file _ (List.mem_cons_of_mem _ hf)

theorem Files.swept (h : Files r d fnames) (htidy : Tidy r d) (hready : ∀ f ∈ fnames, Ready d f) :
    Swept r fnames d (fnames.foldl moveFileSsd d) := by
  induction fnames generalizing d with
  | nil => exact ⟨htidy, rfl, fun f hf => absurd hf List.not_mem_nil, fun _ _ => ⟨rfl, rfl⟩⟩
  | cons f fnames ih =>
      obtain ⟨p, rfl⟩ := h.named f List.mem_cons_self
      obtain ⟨i, hi⟩ := h.file _ List.mem_cons_self
      obtain ⟨⟨_, _, -, hlink, -, -⟩, htidy', hdir, hkept⟩ :=
        htidy.moveFileSsd hi (hready _ List.mem_cons_self)
      have hfiles := h.tail fun q hq => (hkept q hq).1
      have hrest : ∀ f ∈ fnames, Ready (moveFileSsd d (r.fullpath p)) f := by
        intro f hf
        unfold Ready
        rw [hdir]
        exact hready f (List.mem_cons_of_mem _ hf)
      have hswept := ih hfiles htidy' hrest
      have hnot := (List.nodup_cons.mp h.nodup).1
      refine ⟨hswept.tidy, hswept.dir.trans hdir, fun f hf => ?_, fun q hq => ?_⟩
      · rcases List.mem_cons.mp hf with rfl | hf
        · rw [List.foldl_cons, (hswept.kept p hnot).1]
          exact ⟨_, hlink⟩
        · exact hswept.link f hf
      · obtain ⟨hne, hnotMem⟩ := not_or.mp (List.mem_cons.not.mp hq)
        have hqp : q ≠ p := fun heq => hne (by rw [heq])
        obtain ⟨hssd, hhdd⟩ := hswept.kept q hnotMem
        exact ⟨hssd.trans (hkept q hqp).1, hhdd.trans (hkept q hqp).2⟩

theorem Files.allMove_iff (h : Files r d fnames) (htidy : Tidy r d) :
    AllMove d fnames ↔ ∀ f ∈ fnames, Ready d f := by
  induction fnames generalizing d with
  | nil => exact iff_of_true trivial fun f hf => absurd hf List.not_mem_nil
  | cons f fnames ih =>
      obtain ⟨p, rfl⟩ := h.named f List.mem_cons_self
      obtain ⟨i, hi⟩ := h.file _ List.mem_cons_self
      rw [List.forall_mem_cons, AllMove]
      by_cases hready : Ready d (r.fullpath p)
      · obtain ⟨hmoves, htidy', hdir, hkept⟩ := htidy.moveFileSsd hi hready
        rw [ih (h.tail fun q hq => (hkept q hq).1) htidy']
        unfold Ready at hready ⊢
        rw [hdir]
        exact and_congr_left fun _ => iff_of_true hmoves hready
      · exact iff_of_false (fun hall => hready (htidy.ready_of_movesFile hall.1)) fun hall =>
          hready hall.1

/-! ### One node -/

/-- What a disk and the queue over it keep, whatever the queue names. -/
structure Tended (r : Root) (d : Disk) (q : Queue Bytes) : Prop where
  tidy : Tidy r d
  named : ∀ f ∈ names q, ∃ p : FilePath, f = r.fullpath p.bytes
  nodup : (names q).Nodup

theorem Tended.files (h : Tended r d q) (hreal : RealAt d q) (full : List Bool) :
    Files r d (victims full q).1 where
  nodup := (List.nodup_append.mp ((names_perm_of_victims full q).nodup_iff.mp h.nodup)).1
  named f hf := by
    obtain ⟨p, rfl⟩ := h.named f (mem_names_of_mem_victims hf)
    exact ⟨p.bytes, rfl⟩
  file f hf := hreal f (mem_names_of_mem_victims hf)

theorem Tended.left (h : Tended r d q) (full : List Bool) (htidy : Tidy r d') :
    Tended r d' (victims full q).2 where
  tidy := htidy
  named f hf := h.named f (mem_names_of_mem_left hf)
  nodup := (List.nodup_append.mp ((names_perm_of_victims full q).nodup_iff.mp h.nodup)).2.1

theorem Tended.insque (h : Tended r d q) (htidy : Tidy r d') (p : FilePath) :
    Tended r d' (insque (r.fullpath p.bytes) q) where
  tidy := htidy
  named f hf := by
    rcases mem_names_insque.mp hf with rfl | hf
    · exact ⟨p, rfl⟩
    · exact h.named f hf
  nodup := nodup_names_insque h.nodup

theorem Tended.rmelem (h : Tended r d q) (htidy : Tidy r d') (f : Bytes) :
    Tended r d' (rmelem f q) where
  tidy := htidy
  named g hg := h.named g (mem_names_rmelem.mp hg).1
  nodup := nodup_names_rmelem h.nodup

theorem Tended.realAt_left (h : Tended r d q) (hreal : RealAt d q)
    (hswept : Swept r (victims full q).1 d d') : RealAt d' (victims full q).2 := by
  have hparts := List.nodup_append.mp ((names_perm_of_victims full q).nodup_iff.mp h.nodup)
  intro f hf
  obtain ⟨p, rfl⟩ := h.named f (mem_names_of_mem_left hf)
  rw [(hswept.kept p.bytes fun hmem => hparts.2.2 _ hmem _ hf rfl).1]
  exact hreal _ (mem_names_of_mem_left hf)

/-- A name that comes into the queue, where no other file changes. -/
theorem Tended.realAt_insque (h : Tended r d q) (hreal : RealAt d q) {p : Bytes}
    (hkept : ∀ x, x ≠ p → d'.entry (r.fullpath x) = d.entry (r.fullpath x)) :
    RealAt d' (SecondChance.insque (r.fullpath p) q) ↔
      ∃ i, d'.entry (r.fullpath p) = some (.file i) := by
  constructor
  · exact fun hnew => hnew _ (mem_names_insque.mpr (.inl rfl))
  · intro hfile f hf
    rcases mem_names_insque.mp hf with rfl | hf
    · exact hfile
    · obtain ⟨x, rfl⟩ := h.named f hf
      by_cases hx : x.bytes = p
      · rw [hx]
        exact hfile
      · rw [hkept x.bytes hx]
        exact hreal _ hf

theorem realAt_rmelem (hreal : RealAt d q) (f : Bytes) :
    RealAt (d.unlink f) (SecondChance.rmelem f q) := by
  intro g hg
  obtain ⟨hmem, hne⟩ := mem_names_rmelem.mp hg
  have hkept : (d.unlink f).entry g = d.entry g := Function.update_of_ne hne ..
  rw [hkept]
  exact hreal g hmem

theorem realAt_unlink_iff (hreal : RealAt d q) (f : Bytes) :
    RealAt (d.unlink f) q ↔ f ∉ names q := by
  constructor
  · intro hnew hmem
    obtain ⟨i, hi⟩ := hnew f hmem
    simp [Disk.unlink, Disk.setEntry] at hi
  · intro hnot g hg
    have hne : g ≠ f := by
      rintro rfl
      exact hnot hg
    have hkept : (d.unlink f).entry g = d.entry g := Function.update_of_ne hne ..
    rw [hkept]
    exact hreal g hg

theorem Tended.realAt_unlink_hdd (h : Tended r d q) (hreal : RealAt d q) (x : Bytes) :
    RealAt (d.unlink (r.hddpath x)) q := by
  rw [realAt_unlink_iff hreal]
  intro hmem
  obtain ⟨p, hp⟩ := h.named _ hmem
  exact r.fullpath_ne_hddpath p.bytes x hp.symm

/-! ### One step -/

/-- What holds along the runs in question. -/
structure Cached (net : Net Node) (c : Cluster Node) : Prop where
  tended : ∀ n, Tended net.root (c.disk n) (c.node n).queue
  real : QueueReal c

variable {c c' : Cluster Node} {n m : Node}

theorem evictLoop_spec (net : Net Node) (n : Node) (full : List Bool) (c : Cluster Node) :
    (evictLoop net n full c).disk n
        = (victims full (c.node n).queue).1.foldl moveFileSsd (c.disk n) ∧
      ((evictLoop net n full c).node n).queue = (victims full (c.node n).queue).2 ∧
      ∀ m, m ≠ n → (evictLoop net n full c).node m = c.node m := by
  induction full generalizing c with
  | nil => exact ⟨rfl, rfl, fun _ _ => rfl⟩
  | cons answer full ih =>
      cases answer with
      | false => exact ⟨rfl, rfl, fun _ _ => rfl⟩
      | true =>
          rw [evictLoop, victims]
          cases hq : remque (c.node n).queue with
          | none => exact ⟨rfl, rfl, fun _ _ => rfl⟩
          | some res =>
              obtain ⟨fname, rest⟩ := res
              obtain ⟨hdisk, hqueue, hother⟩ := ih (evictFile net n fname (c.setQueue n rest))
              have hrest : ((evictFile net n fname (c.setQueue n rest)).node n).queue = rest := by
                simp [evictFile]
              have hmoved : (evictFile net n fname (c.setQueue n rest)).disk n
                  = moveFileSsd (c.disk n) fname := by simp [evictFile]
              rw [hrest, hmoved] at hdisk
              rw [hrest] at hqueue
              refine ⟨hdisk, hqueue, fun m hm => ?_⟩
              rw [hother m hm]
              simp [evictFile, Cluster.setDisk, Cluster.setQueue, Cluster.setNode, hm]

theorem disk_ffsRmfile (addr remote : Bytes) (m : Node) : (ffsRmfile net addr remote c).disk m
    = if addr = net.ip m then (c.disk m).unlink remote else c.disk m := by
  unfold ffsRmfile
  cases hhost : net.host addr with
  | none =>
      have hne : addr ≠ net.ip m := by
        intro heq
        rw [(net.host_iff addr m).mpr heq] at hhost
        cases hhost
      rw [if_neg hne]
  | some k =>
      obtain rfl := (net.host_iff addr k).mp hhost
      by_cases hk : m = k
      · subst hk
        rw [if_pos rfl]
        exact Cluster.disk_setDisk_self ..
      · have hne : net.ip k ≠ net.ip m := by
          intro heq
          rw [(net.host_iff _ m).mpr heq] at hhost
          exact hk (Option.some.inj hhost)
        rw [if_neg hne]
        exact Cluster.disk_setDisk_of_ne _ _ _ _ hk

theorem queue_ffsRmfile (addr remote : Bytes) (m : Node) :
    ((ffsRmfile net addr remote c).node m).queue = (c.node m).queue := by
  unfold ffsRmfile
  split <;> simp

/-- A removal by another node leaves the queue right if the file is not in it. -/
theorem ffsRmfile_spec (h : Tended net.root (c.disk m) (c.node m).queue)
    (hreal : RealAt (c.disk m) (c.node m).queue) (addr x : Bytes) (flag : Bool) :
    Tended net.root ((ffsRmfile net addr (remotePath (net.root.fullpath x) flag) c).disk m)
        (c.node m).queue ∧
      (RealAt ((ffsRmfile net addr (remotePath (net.root.fullpath x) flag) c).disk m)
          (c.node m).queue ↔
        ((flag, addr) = (false, net.ip m) → net.root.fullpath x ∉ names (c.node m).queue)) := by
  rw [disk_ffsRmfile]
  by_cases haddr : addr = net.ip m
  · rw [if_pos haddr]
    refine ⟨⟨h.tidy.unlink _, h.named, h.nodup⟩, ?_⟩
    cases flag with
    | true =>
        rw [remotePath, if_pos rfl, net.root.getHddPath_fullpath]
        refine iff_of_true (h.realAt_unlink_hdd hreal x) fun heq => ?_
        have hflag : true = false := congrArg Prod.fst heq
        cases hflag
    | false =>
        rw [remotePath, if_neg Bool.false_ne_true, realAt_unlink_iff hreal]
        exact ⟨fun hnot _ => hnot, fun hnot => hnot (by rw [haddr])⟩
  · rw [if_neg haddr]
    exact ⟨h, iff_of_true hreal fun heq => absurd (congrArg Prod.snd heq) haddr⟩

/-- A disk and queue of one node, where the other nodes keep theirs. -/
theorem Cached.of_one (h : Cached net c) (hother : ∀ m, m ≠ n → c'.node m = c.node m) {P : Prop}
    (htended : Tended net.root (c'.disk n) (c'.node n).queue)
    (hreal : RealAt (c'.disk n) (c'.node n).queue ↔ P) :
    (∀ m, Tended net.root (c'.disk m) (c'.node m).queue) ∧ (QueueReal c' ↔ P) := by
  refine ⟨fun m => ?_, ⟨fun hall => hreal.mp (hall n), fun hp m => ?_⟩⟩
  · by_cases hm : m = n
    · rw [hm]
      exact htended
    · rw [Cluster.disk, hother m hm]
      exact h.tended m
  · by_cases hm : m = n
    · rw [hm]
      exact hreal.mpr hp
    · rw [Cluster.disk, hother m hm]
      exact h.real m

theorem Cached.keep (h : Cached net c) (hother : ∀ m, m ≠ n → c'.node m = c.node m)
    (htended : Tended net.root (c'.disk n) (c'.node n).queue)
    (hreal : RealAt (c'.disk n) (c'.node n).queue) : Cached net c' := by
  obtain ⟨htended', hreal'⟩ := h.of_one hother htended (iff_of_true hreal trivial)
  exact ⟨htended', hreal'.mpr trivial⟩

theorem Cached.swept (h : Cached net c) {full : List Bool} (hready : VictimsReady n full c) :
    Swept net.root (victims full (c.node n).queue).1 (c.disk n)
      ((evictLoop net n full c).disk n) := by
  rw [(evictLoop_spec net n full c).1]
  exact ((h.tended n).files (h.real n) full).swept (h.tended n).tidy hready

omit [DecidableEq Node] in
theorem Cached.loopMoves_iff (h : Cached net c) (n : Node) (full : List Bool) :
    LoopMoves n full c ↔ VictimsReady n full c :=
  ((h.tended n).files (h.real n) full).allMove_iff (h.tended n).tidy

theorem enqueue_spec (net : Net Node) (n : Node) (path : FilePath) (mode : OpenMode)
    (ino : Option Nat) (c : Cluster Node) :
    (enqueue net n path mode ino c).2.disk n = c.disk n ∧
      ((enqueue net n path mode ino c).2.node n).queue
        = insque (net.root.fullpath path.bytes) (c.node n).queue ∧
      ∀ m, m ≠ n → (enqueue net n path mode ino c).2.node m = c.node m := by
  unfold enqueue
  cases ino with
  | none => simp +contextual [Cluster.setQueue, Cluster.setNode, Cluster.disk]
  | some ino =>
      refine ⟨by simp, by simp, fun m hm => ?_⟩
      simp [Cluster.setQueue, Cluster.addHandle, Cluster.setHandle, Cluster.setNode, hm]

theorem CanHold.congr {d d' : Disk} {f : Bytes} (hentry : d'.entry f = d.entry f)
    (hdir : d'.dir = d.dir) : CanHold d' f ↔ CanHold d f := by
  unfold CanHold
  rw [hentry, hdir]

theorem not_canHold_of_link {d : Disk} {f t : Bytes} (ht : d.entry f = some (.link t)) :
    ¬CanHold d f := by
  unfold CanHold
  simp [ht]

/-- `fusion_create` puts the name of a file into the queue if there is a file, or room for one, that
the loop has not turned into a link. -/
theorem create_spec (h : Cached net c) {path : FilePath} {full : List Bool}
    (hready : VictimsReady n full c) :
    (∀ m, Tended net.root ((fusionCreate net n full path c).2.disk m)
        ((fusionCreate net n full path c).2.node m).queue) ∧
      (QueueReal (fusionCreate net n full path c).2 ↔
        SparesQueues net c (.create n full path)) := by
  set fpath := net.root.fullpath path.bytes with hfpath
  obtain ⟨-, hqueue, hother⟩ := evictLoop_spec net n full c
  have hswept := h.swept hready
  set c₁ := evictLoop net n full c
  have hadded := hswept.tidy.afterCreat path.bytes
  have hleft : Tended net.root (c₁.disk n) (c₁.node n).queue := hqueue ▸ (h.tended n).left full hswept.tidy
  have hrealLeft : RealAt (c₁.disk n) (c₁.node n).queue := by
    rw [hqueue]
    exact (h.tended n).realAt_left (h.real n) hswept
  -- whether `creat` fails or not
  have hcreated : ∃ ino c₂, (fusionCreate net n full path c).2
        = (enqueue net n path .wronly ino c₂).2.setZht
          (createEntry (enqueue net n path .wronly ino c₂).2.zht path.bytes (net.ip n)) ∧
      c₂.disk n = afterCreat (c₁.disk n) fpath ∧ (c₂.node n).queue = (c₁.node n).queue ∧
      ∀ m, m ≠ n → c₂.node m = c₁.node m := by
    unfold fusionCreate afterCreat
    dsimp only
    rw [← hfpath]
    cases hc : creat (c₁.disk n) fpath with
    | none => exact ⟨none, c₁, rfl, rfl, rfl, fun _ _ => rfl⟩
    | some res =>
        refine ⟨some res.1, c₁.setDisk n res.2, rfl, Cluster.disk_setDisk_self .., by simp,
          fun m hm => ?_⟩
        simp [Cluster.setDisk, Cluster.setNode, hm]
  obtain ⟨ino, c₂, heq, hdisk₂, hqueue₂, hother₂⟩ := hcreated
  obtain ⟨hdisk₃, hqueue₃, hother₃⟩ := enqueue_spec net n path .wronly ino c₂
  rw [heq]
  apply h.of_one
  · intro m hm
    rw [Cluster.node_setZht, hother₃ m hm, hother₂ m hm, hother m hm]
  · rw [Cluster.disk_setZht, Cluster.node_setZht, hdisk₃, hqueue₃, hdisk₂, hqueue₂]
    exact hleft.insque hadded.tidy path
  · rw [Cluster.disk_setZht, Cluster.node_setZht, hdisk₃, hqueue₃, hdisk₂, hqueue₂,
      hleft.realAt_insque hrealLeft hadded.elsewhere, hadded.file]
    unfold SparesQueues
    by_cases hvictim : fpath ∈ (victims full (c.node n).queue).1
    · obtain ⟨t, ht⟩ := hswept.link fpath hvictim
      exact iff_of_false (not_canHold_of_link ht) fun hspares => hspares.1 hvictim
    · rw [CanHold.congr (hswept.kept path.bytes hvictim).1 hswept.dir]
      exact ⟨fun hcan => ⟨hvictim, hcan⟩, And.right⟩

theorem open_spec (h : Cached net c) {path : FilePath} {full : List Bool} {mode : OpenMode}
    (hready : isSymlinkSsd (c.disk n) (net.root.fullpath path.bytes) = true →
      VictimsReady n full c) :
    (∀ m, Tended net.root ((fusionOpen net n full path mode c).2.disk m)
        ((fusionOpen net n full path mode c).2.node m).queue) ∧
      (QueueReal (fusionOpen net n full path mode c).2 ↔
        SparesQueues net c (.open n full path mode)) := by
  unfold fusionOpen
  dsimp only
  generalize hino : ((prepareOpen net n full path c).disk n).openIno _ = ino
  obtain ⟨hdisk, hqueue, hother⟩ :=
    enqueue_spec net n path mode ino (prepareOpen net n full path c)
  unfold prepareOpen at hdisk hqueue hother ⊢
  unfold SparesQueues
  dsimp only at hdisk hqueue hother ⊢
  cases hsym : isSymlinkSsd (c.disk n) (net.root.fullpath path.bytes) with
  | false =>
      rw [hsym, if_neg Bool.false_ne_true] at hdisk hqueue hother
      rw [if_neg Bool.false_ne_true]
      apply h.of_one hother
      · rw [hdisk, hqueue]
        exact (h.tended n).insque (h.tended n).tidy path
      · rw [hdisk, hqueue, (h.tended n).realAt_insque (h.real n) fun _ _ => rfl]
        simp
  | true =>
      rw [hsym, if_pos rfl] at hdisk hqueue hother
      rw [if_pos rfl]
      have hready := hready hsym
      obtain ⟨⟨t, ht⟩, i, hi⟩ := (h.tended n).tidy.isSymlinkSsd_iff.mp hsym
      have hvictim : net.root.fullpath path.bytes ∉ (victims full (c.node n).queue).1 := by
        intro hmem
        obtain ⟨j, hj⟩ := h.real n _ (mem_names_of_mem_victims hmem)
        rw [ht] at hj
        cases hj
      have hswept := h.swept hready
      obtain ⟨-, hleft, hothers⟩ := evictLoop_spec net n full c
      obtain ⟨hssd, hhdd⟩ := hswept.kept path.bytes hvictim
      obtain ⟨htidy, hfile, hkept⟩ := hswept.tidy.moveFileHdd (hssd.trans ht) (hhdd.trans hi)
      have htended := (h.tended n).left full hswept.tidy
      have hreal := (h.tended n).realAt_left (h.real n) hswept
      rw [Cluster.disk_setDisk_self] at hdisk
      rw [Cluster.queue_setDisk, hleft] at hqueue
      apply h.of_one
      · intro m hm
        rw [hother m hm, ← hothers m hm]
        simp [Cluster.setDisk, Cluster.setNode, hm]
      · rw [hdisk, hqueue]
        exact htended.insque htidy path
      · rw [hdisk, hqueue, htended.realAt_insque hreal hkept]
        exact iff_of_true hfile (.inl rfl)

theorem getattr_spec (h : Cached net c) (n : Node) (junk p : Bytes) :
    Cached net (fusionGetattr net n junk p c).2 := by
  have hkeep : ∀ d, Tidy net.root d →
      (∀ f i, (c.disk n).entry f = some (.file i) → (∃ x, f = net.root.fullpath x) →
        ∃ j, d.entry f = some (.file j)) → Cached net (c.setDisk n d) := by
    intro d htidy hfiles
    have hother : ∀ m, m ≠ n → (c.setDisk n d).node m = c.node m := by
      intro m hm
      simp [Cluster.setDisk, Cluster.setNode, hm]
    apply h.keep hother
    · rw [Cluster.disk_setDisk_self, Cluster.queue_setDisk]
      exact ⟨htidy, (h.tended n).named, (h.tended n).nodup⟩
    · rw [Cluster.disk_setDisk_self, Cluster.queue_setDisk]
      intro f hf
      obtain ⟨i, hi⟩ := h.real n f hf
      obtain ⟨x, rfl⟩ := (h.tended n).named f hf
      exact hfiles _ i hi ⟨x.bytes, rfl⟩
  have hmade : ∀ path, path <+: net.root.fullpath p →
      Tidy net.root (mkdirAll (ancestors path) (c.disk n)) :=
    fun _ hpath => (h.tended n).tidy.mkdirAll hpath
  have hstored : ∀ d content, Tidy net.root d → d.entry = (c.disk n).entry →
      Cached net (c.setDisk n (store d (net.root.fullpath p) content)) := by
    intro d content htidy hentry
    have hadded := htidy.store p content
    apply hkeep _ hadded.tidy
    rintro f i hi ⟨x, rfl⟩
    rw [← hentry] at hi
    by_cases hx : x = p
    · rw [hx] at hi ⊢
      exact hadded.file.mpr (.inl ⟨i, hi⟩)
    · rw [hadded.elsewhere x hx]
      exact ⟨i, hi⟩
  unfold fusionGetattr
  dsimp only
  cases hz : c.zht p with
  | none =>
      cases hz' : c.zht (p ++ [slash]) with
      | none => exact h
      | some val =>
          apply hkeep _ (hmade _ (List.prefix_refl _))
          intro f i hi _
          rw [mkdirAll_entry]
          exact ⟨i, hi⟩
  | some val =>
      dsimp only
      split
      · unfold ffsRecvfile
        cases net.host (realIp junk val).2 with
        | none => exact h
        | some m =>
            dsimp only
            cases (c.disk m).openIno (remotePath (net.root.fullpath p) (realIp junk val).1) with
            | none => exact h
            | some i =>
                dsimp only
                split
                · exact hstored _ _ (h.tended n).tidy rfl
                · exact hstored _ _ (hmade _ (parentOf_isPrefix _)) (mkdirAll_entry _ _)
      · exact h

theorem Cached.setHandle (h : Cached net c) (n : Node) (fd : Nat) (hd : Option Handle) :
    Cached net (c.setHandle n fd hd) := by
  constructor
  · intro m
    rw [Cluster.disk_setHandle, Cluster.queue_setHandle]
    exact h.tended m
  · intro m
    rw [Cluster.disk_setHandle, Cluster.queue_setHandle]
    exact h.real m

omit [DecidableEq Node] in
theorem Cached.setZht (h : Cached net c) (z : Zht) : Cached net (c.setZht z) := ⟨h.tended, h.real⟩

theorem publish_spec (h : Cached net c) {nodeaddr : Bool × Bytes} {p : Bytes} {full : List Bool}
    (hremote : net.ip n ≠ nodeaddr.2) (hready : VictimsReady n full c) :
    (∀ m, Tended net.root ((publish net n full p nodeaddr c).disk m)
        ((publish net n full p nodeaddr c).node m).queue) ∧
      (QueueReal (publish net n full p nodeaddr c) ↔ ∀ m, m ≠ n → nodeaddr = (false, net.ip m) →
        net.root.fullpath p ∉ names (c.node m).queue) := by
  unfold publish
  dsimp only
  have h₀ := h.setZht (zhtUpdate c.zht p (net.ip n))
  set c₀ := c.setZht (zhtUpdate c.zht p (net.ip n))
  have hremoved := fun m => ffsRmfile_spec (h₀.tended m) (h₀.real m) nodeaddr.2 p nodeaddr.1
  have hqueue : ∀ m, ((ffsRmfile net nodeaddr.2 (remotePath (net.root.fullpath p) nodeaddr.1)
      c₀).node m).queue = (c₀.node m).queue := queue_ffsRmfile _ _
  have hown : (ffsRmfile net nodeaddr.2 (remotePath (net.root.fullpath p) nodeaddr.1) c₀).disk n
      = c.disk n := by
    rw [disk_ffsRmfile, if_neg fun heq => hremote heq.symm]
    rfl
  set c₁ := ffsRmfile net nodeaddr.2 (remotePath (net.root.fullpath p) nodeaddr.1) c₀
  obtain ⟨hdisk, hleft, hother⟩ := evictLoop_spec net n full c₁
  have hswept := h.swept hready
  rw [(evictLoop_spec net n full c).1] at hswept
  have hself : (evictLoop net n full c₁).disk n
        = (victims full (c.node n).queue).1.foldl moveFileSsd (c.disk n) ∧
      ((evictLoop net n full c₁).node n).queue = (victims full (c.node n).queue).2 := by
    rw [hdisk, hleft, hqueue n, hown]
    exact ⟨rfl, rfl⟩
  have hothers : ∀ m, m ≠ n → (evictLoop net n full c₁).disk m = c₁.disk m ∧
      ((evictLoop net n full c₁).node m).queue = (c.node m).queue := by
    intro m hm
    rw [Cluster.disk, hother m hm]
    exact ⟨rfl, hqueue m⟩
  constructor
  · intro m
    by_cases hm : m = n
    · rw [hm, hself.1, hself.2]
      exact (h.tended n).left full hswept.tidy
    · rw [(hothers m hm).1, (hothers m hm).2]
      exact (hremoved m).1
  · constructor
    · intro hreal m hm
      have hat := hreal m
      rw [(hothers m hm).1, (hothers m hm).2] at hat
      exact (hremoved m).2.mp hat
    · intro hspare m
      by_cases hm : m = n
      · rw [hm, hself.1, hself.2]
        exact (h.tended n).realAt_left (h.real n) hswept
      · rw [(hothers m hm).1, (hothers m hm).2]
        exact (hremoved m).2.mpr (hspare m hm)

theorem dropCopy_spec (h : Cached net c) (n : Node) (p : Bytes) :
    Cached net (dropCopy net n p c) := by
  have hother : ∀ m, m ≠ n → (dropCopy net n p c).node m = c.node m := by
    intro m hm
    simp [dropCopy, Cluster.setDisk, Cluster.setQueue, Cluster.setNode, hm]
  apply h.keep hother
  · simp only [dropCopy, Cluster.disk_setQueue, Cluster.disk_setDisk_self, Cluster.queue_setDisk,
      Cluster.queue_setQueue_self]
    exact (h.tended n).rmelem ((h.tended n).tidy.unlink _) _
  · simp only [dropCopy, Cluster.disk_setQueue, Cluster.disk_setDisk_self, Cluster.queue_setDisk,
      Cluster.queue_setQueue_self]
    exact realAt_rmelem (h.real n) _

theorem release_spec (h : Cached net c) {full : List Bool} {junk : Bytes} {fd : Nat}
    (hready : RoomOnHdd net c (.release n full junk fd))
    (hc : fusionRelease net n full junk fd c = some c') :
    (∀ m, Tended net.root (c'.disk m) (c'.node m).queue) ∧
      (QueueReal c' ↔ SparesQueues net c (.release n full junk fd)) := by
  unfold fusionRelease at hc
  rw [Option.bind_eq_bind, Option.bind_eq_some_iff] at hc
  obtain ⟨hd, hfd, hc⟩ := hc
  have hclosed := h.setHandle n fd none
  have hguard : SparesQueues net c (.release n full junk fd) ↔ (hd.mode ≠ .rdonly →
      ∀ m, m ≠ n → realIp junk (zhtValue c.zht hd.path.bytes) = (false, net.ip m) →
        net.root.fullpath hd.path.bytes ∉ names (c.node m).queue) := by
    constructor
    · exact fun hspare => hspare hd hfd
    · intro hspare h' hfd'
      rw [hfd, Option.some.injEq] at hfd'
      exact hfd' ▸ hspare
  rw [hguard]
  dsimp only at hc
  split at hc
  · next hlocal =>
      obtain rfl := Option.some.inj hc
      refine ⟨hclosed.tended, iff_of_true hclosed.real fun _ m hm heq => ?_⟩
      have hsame : net.ip n = net.ip m := hlocal.trans (congrArg Prod.snd heq)
      exact absurd (ip_inj hsame).symm hm
  · next hremote =>
      split at hc
      · next hmode =>
          obtain rfl := Option.some.inj hc
          have hready' : VictimsReady n full (c.setHandle n fd none) := by
            unfold VictimsReady
            rw [Cluster.queue_setHandle, Cluster.disk_setHandle]
            exact hready hd hfd hmode hremote
          obtain ⟨htended, hreal⟩ := publish_spec hclosed hremote hready'
          refine ⟨htended, hreal.trans ?_⟩
          simp only [Cluster.queue_setHandle]
          exact ⟨fun hspare _ => hspare, fun hspare => hspare hmode⟩
      · next hmode =>
          obtain rfl := Option.some.inj hc
          have hdropped := dropCopy_spec hclosed n hd.path.bytes
          exact ⟨hdropped.tended, iff_of_true hdropped.real fun hne => absurd hne hmode⟩

theorem Cached.setQueue_rmelem (h : Cached net c) (n : Node) (f : Bytes) :
    Cached net (c.setQueue n (rmelem f (c.node n).queue)) := by
  have hother : ∀ m, m ≠ n →
      (c.setQueue n (rmelem f (c.node n).queue)).node m = c.node m := by
    intro m hm
    simp [Cluster.setQueue, Cluster.setNode, hm]
  apply h.keep hother
  · rw [Cluster.disk_setQueue, Cluster.queue_setQueue_self]
    exact (h.tended n).rmelem (h.tended n).tidy f
  · rw [Cluster.disk_setQueue, Cluster.queue_setQueue_self]
    exact fun g hg => h.real n g (mem_names_rmelem.mp hg).1

theorem Cached.unlink_hdd (h : Cached net c) (n : Node) (x : Bytes) :
    Cached net (c.setDisk n ((c.disk n).unlink (net.root.hddpath x))) := by
  have hother : ∀ m, m ≠ n →
      (c.setDisk n ((c.disk n).unlink (net.root.hddpath x))).node m = c.node m := by
    intro m hm
    simp [Cluster.setDisk, Cluster.setNode, hm]
  apply h.keep hother
  · rw [Cluster.disk_setDisk_self, Cluster.queue_setDisk]
    exact ⟨(h.tended n).tidy.unlink _, (h.tended n).named, (h.tended n).nodup⟩
  · rw [Cluster.disk_setDisk_self, Cluster.queue_setDisk]
    exact (h.tended n).realAt_unlink_hdd (h.real n) x

theorem unlink_spec (h : Cached net c) {junk : Bytes} {path : FilePath} {ret : Int}
    (hc : fusionUnlink net n junk path c = some (ret, c')) :
    (∀ m, Tended net.root (c'.disk m) (c'.node m).queue) ∧
      (QueueReal c' ↔ SparesQueues net c (.unlink n junk path)) := by
  set fpath := net.root.fullpath path.bytes with hfpath
  rcases unlink_cases hc with ⟨hnone, -, rfl⟩ | ⟨val, z, oldaddr, c₁, c₂, hval, hc₁, -, rfl, hc₂, -, rfl⟩
  · refine ⟨h.tended, iff_of_true h.real fun val hval => ?_⟩
    rw [hnone] at hval
    cases hval
  · have h₁ : Cached net c₁ := by
      rw [hc₁]
      split
      · rw [net.root.getHddPath_fullpath]
        exact h.unlink_hdd n _
      · exact h
    have hqueue₁ : ∀ m, (c₁.node m).queue = (c.node m).queue := by
      intro m
      rw [hc₁]
      split
      · exact Cluster.queue_setDisk ..
      · rfl
    rw [← hfpath, ← hqueue₁ n] at hc₂
    have h₃ := (h₁.setQueue_rmelem n fpath).setZht (zhtRemove z path.bytes)
    have hqueue₃ : ∀ m, (((c₁.setQueue n (rmelem fpath (c₁.node n).queue)).setZht
        (zhtRemove z path.bytes)).node m).queue
          = if m = n then rmelem fpath (c.node n).queue else (c.node m).queue := by
      intro m
      rw [Cluster.node_setZht]
      split
      · next hm => rw [hm, Cluster.queue_setQueue_self, hqueue₁]
      · next hm => rw [Cluster.queue_setQueue_of_ne _ _ _ _ hm, hqueue₁]
    set c₃ := (c₁.setQueue n (rmelem fpath (c₁.node n).queue)).setZht (zhtRemove z path.bytes)
    have h₂ : ∀ m, (c₂.node m).queue = (c₃.node m).queue ∧
        Tended net.root (c₂.disk m) (c₃.node m).queue ∧ (RealAt (c₂.disk m) (c₃.node m).queue ↔
          (net.ip n ≠ net.ip m → realIp junk val = (false, net.ip m) →
            fpath ∉ names (c₃.node m).queue)) := by
      intro m
      rw [hc₂]
      split
      · next hlocal =>
          refine ⟨rfl, h₃.tended m, iff_of_true (h₃.real m) fun hne heq => ?_⟩
          rw [heq] at hlocal
          exact absurd hlocal hne
      · next hremote =>
          obtain ⟨htended, hreal⟩ := ffsRmfile_spec (h₃.tended m) (h₃.real m) (realIp junk val).2
            path.bytes (realIp junk val).1
          refine ⟨queue_ffsRmfile .., htended, hreal.trans ⟨fun hspare _ => hspare, ?_⟩⟩
          intro hspare heq
          apply hspare _ heq
          intro hsame
          rw [hsame] at hremote
          exact hremote (congrArg Prod.snd heq).symm
    have hown : ∀ m, m = n → fpath ∉ names (c₃.node m).queue := by
      intro m hm hmem
      rw [hqueue₃, if_pos hm] at hmem
      exact (mem_names_rmelem.mp hmem).2 rfl
    have hfinal : ∀ m, Tended net.root ((c₂.setDisk n ((c₂.disk n).unlink fpath)).disk m)
          (c₃.node m).queue ∧
        (RealAt ((c₂.setDisk n ((c₂.disk n).unlink fpath)).disk m) (c₃.node m).queue ↔
          RealAt (c₂.disk m) (c₃.node m).queue) := by
      intro m
      by_cases hm : m = n
      · subst hm
        obtain ⟨-, htended, hreal⟩ := h₂ m
        have hreal := hreal.mpr fun hne => absurd rfl hne
        rw [Cluster.disk_setDisk_self]
        exact ⟨⟨htended.tidy.unlink _, htended.named, htended.nodup⟩,
          iff_of_true ((realAt_unlink_iff hreal fpath).mpr (hown m rfl)) hreal⟩
      · rw [Cluster.disk_setDisk_of_ne _ _ _ _ hm]
        exact ⟨(h₂ m).2.1, Iff.rfl⟩
    constructor
    · intro m
      rw [Cluster.queue_setDisk, (h₂ m).1]
      exact (hfinal m).1
    · constructor
      · intro hreal val' hval' m hm heq
        obtain rfl := Option.some.inj (hval.symm.trans hval')
        have hat := hreal m
        rw [Cluster.queue_setDisk, (h₂ m).1, (hfinal m).2, (h₂ m).2.2] at hat
        have hnot := hat (fun hsame => hm (ip_inj hsame).symm) heq
        rwa [hqueue₃, if_neg hm] at hnot
      · intro hspare m
        rw [Cluster.queue_setDisk, (h₂ m).1, (hfinal m).2, (h₂ m).2.2]
        intro hne heq
        have hm : m ≠ n := fun hmn => hne (by rw [hmn])
        rw [hqueue₃, if_neg hm]
        exact hspare val hval m hm heq

theorem Cached.setData (h : Cached net c) (n : Node) (i : Nat) (content : Bytes) :
    Cached net (c.setDisk n ((c.disk n).setData i content)) := by
  have hother : ∀ m, m ≠ n →
      (c.setDisk n ((c.disk n).setData i content)).node m = c.node m := by
    intro m hm
    simp [Cluster.setDisk, Cluster.setNode, hm]
  apply h.keep hother
  · rw [Cluster.disk_setDisk_self, Cluster.queue_setDisk]
    exact ⟨(h.tended n).tidy, (h.tended n).named, (h.tended n).nodup⟩
  · rw [Cluster.disk_setDisk_self, Cluster.queue_setDisk]
    exact h.real n

theorem step_spec (h : Cached net c) {op : Op Node} (hroom : RoomOnHdd net c op)
    (hstep : step net c op = some c') :
    (∀ m, Tended net.root (c'.disk m) (c'.node m).queue) ∧
      (QueueReal c' ↔ SparesQueues net c op) := by
  have hkept : ∀ {c' : Cluster Node}, Cached net c' →
      (∀ m, Tended net.root (c'.disk m) (c'.node m).queue) ∧ (QueueReal c' ↔ True) :=
    fun h' => ⟨h'.tended, iff_of_true h'.real trivial⟩
  cases op with
  | create n full path =>
      cases hstep
      exact create_spec h hroom
  | getattr n junk p =>
      cases hstep
      exact hkept (getattr_spec h n junk p)
  | «open» n full path mode =>
      cases hstep
      exact open_spec h hroom
  | read n fd off size =>
      obtain ⟨_, -, rfl⟩ := Option.map_eq_some_iff.mp hstep
      exact hkept h
  | write n fd off buf =>
      obtain ⟨hd, -, -, rfl⟩ := write_cases hstep
      exact hkept (h.setData n _ _)
  | truncate n path size =>
      obtain ⟨i, -, rfl⟩ := truncate_cases hstep
      exact hkept (h.setData n _ _)
  | release n full junk fd => exact release_spec h hroom hstep
  | unlink n junk path =>
      obtain ⟨⟨ret, c''⟩, hc, rfl⟩ := Option.map_eq_some_iff.mp hstep
      exact unlink_spec h hc

/-- The loops move files exactly when there is room for their victims. -/
theorem Cached.evictsFiles_iff (h : Cached net c) (op : Op Node) :
    EvictsFiles net c op ↔ RoomOnHdd net c op := by
  cases op with
  | create n full path => exact h.loopMoves_iff n full
  | «open» n full path mode => exact imp_congr_right fun _ => h.loopMoves_iff n full
  | release n full junk fd =>
      refine forall_congr' fun hd => forall_congr' fun _ => forall_congr' fun _ => ?_
      rw [forall_eq]
      refine forall_congr' fun hremote => ?_
      set nodeaddr := realIp junk (zhtValue c.zht hd.path.bytes)
      have hset := (h.setHandle n fd none).setZht (zhtUpdate c.zht hd.path.bytes (net.ip n))
      set c₀ := (c.setHandle n fd none).setZht (zhtUpdate c.zht hd.path.bytes (net.ip n))
      have hown : LoopMoves n full (ffsRmfile net nodeaddr.2
          (remotePath (net.root.fullpath hd.path.bytes) nodeaddr.1) c₀) ↔ LoopMoves n full c₀ := by
        unfold LoopMoves
        rw [queue_ffsRmfile, disk_ffsRmfile, if_neg fun heq => hremote heq.symm]
      rw [hown, hset.loopMoves_iff]
      unfold VictimsReady
      rw [Cluster.disk_setZht, Cluster.node_setZht, Cluster.disk_setHandle, Cluster.queue_setHandle]
  | getattr _ _ _ => exact Iff.rfl
  | read _ _ _ _ => exact Iff.rfl
  | write _ _ _ _ => exact Iff.rfl
  | truncate _ _ _ => exact Iff.rfl
  | unlink _ _ _ => exact Iff.rfl

/-! ### Runs -/

omit [DecidableEq Node] in
theorem cached_of_initial (h : Initial c) : Cached net c where
  tended n := by
    refine ⟨fun x e he => ?_, fun f hf => ?_, ?_⟩
    · rw [h.entry n] at he
      cases he
    · rw [h.queue n] at hf
      cases hf
    · rw [h.queue n]
      exact List.nodup_nil
  real n f hf := by
    rw [h.queue n] at hf
    cases hf

/-- **Queue entries are real files**, and every iteration of a loop moves one, exactly in the runs
whose steps spare the queues and find room on the HDD. -/
theorem queues_real_iff (net : Net Node) (c : Cluster Node) (hinit : Initial c)
    (ops : List (Op Node)) :
    (Always (step net) QueueReal c ops ∧ EachStep (step net) (EvictsFiles net) c ops) ↔
      EachStep (step net) (fun c op => RoomOnHdd net c op ∧ SparesQueues net c op) c ops := by
  apply always_and_eachStep_iff (I := Cached net)
  · exact fun c h => h.real
  · rintro c op c' h hstep ⟨hroom, hspares⟩
    obtain ⟨htended, hreal⟩ := step_spec h hroom hstep
    exact ⟨⟨htended, hreal.mpr hspares⟩, (h.evictsFiles_iff op).mpr hroom⟩
  · intro c op c' h hstep hreal hevicts
    have hroom := (h.evictsFiles_iff op).mp hevicts
    exact ⟨hroom, (step_spec h hroom hstep).2.mp hreal⟩
  · exact cached_of_initial hinit

section

variable [Fintype Node]

instance (d : Disk) (fpath : Bytes) : Decidable (CanHold d fpath) := inferInstanceAs (Decidable (_ ∨ _))

instance (n : Node) (full : List Bool) (c : Cluster Node) : Decidable (VictimsReady n full c) :=
  inferInstanceAs (Decidable (∀ fname ∈ _, _))

instance (c : Cluster Node) (op : Op Node) : Decidable (RoomOnHdd net c op) :=
  match op with
  | .create n full _ => inferInstanceAs (Decidable (VictimsReady n full c))
  | .open _ _ _ _ => inferInstanceAs (Decidable (_ → _))
  | .release n full junk fd => inferInstanceAs (Decidable (∀ h ∈ (c.node n).fds fd, h.mode ≠ .rdonly →
      net.ip n ≠ (realIp junk (zhtValue c.zht h.path.bytes)).2 → VictimsReady n full c))
  | .getattr .. | .read .. | .write .. | .truncate .. | .unlink .. => .isTrue trivial

instance (c : Cluster Node) (op : Op Node) : Decidable (SparesQueues net c op) :=
  match op with
  | .create _ _ _ => inferInstanceAs (Decidable (_ ∧ _))
  | .open _ _ _ _ => inferInstanceAs (Decidable (_ ∨ _))
  | .release n _ junk fd => inferInstanceAs (Decidable (∀ h ∈ (c.node n).fds fd, h.mode ≠ .rdonly →
      ∀ m, m ≠ n → realIp junk (zhtValue c.zht h.path.bytes) = (false, net.ip m) →
        net.root.fullpath h.path.bytes ∉ names (c.node m).queue))
  | .unlink n junk path => inferInstanceAs (Decidable (∀ val ∈ c.zht path.bytes,
      ∀ m, m ≠ n → realIp junk val = (false, net.ip m) →
        net.root.fullpath path.bytes ∉ names (c.node m).queue))
  | .getattr .. | .read .. | .write .. | .truncate .. => .isTrue trivial

end

/-- A file is moved to the HDD before another node writes to it, becomes its owner and removes it. -/
def movedFirst : List (Op Bool) :=
  [.create false [] (filePath "/f" path_f), .release false [] [] 0,
    .create false [true] (filePath "/g" path_g), .release false [] [] 1,
    .getattr true [] (cstr "/f"), .open true [] (filePath "/f" path_f) .wronly,
    .release true [] [] 0, .unlink true [] (filePath "/f" path_f)]

theorem queues_real_iff_movedFirst :
    Always (step twoNodes) QueueReal (mountedCluster twoNodes) movedFirst ∧
      EachStep (step twoNodes) (EvictsFiles twoNodes) (mountedCluster twoNodes) movedFirst := by
  have hguard : Guarded (step twoNodes)
      (fun c op => RoomOnHdd twoNodes c op ∧ SparesQueues twoNodes c op)
      (mountedCluster twoNodes) movedFirst := by decide +kernel
  exact (queues_real_iff twoNodes (mountedCluster twoNodes) (mountedCluster_initial twoNodes)
    movedFirst).mpr hguard.eachStep

/-- Here the name of the file is in the queue of its old owner. -/
def takenOver : List (Op Bool) :=
  [.create false [] (filePath "/f" path_f), .release false [] [] 0,
    .getattr true [] (cstr "/f"), .open true [] (filePath "/f" path_f) .wronly,
    .release true [] [] 0]

/-- The next loop on the old owner makes a link to nothing. -/
theorem not_queues_real : ∃ c c', run (step twoNodes) (mountedCluster twoNodes) takenOver = some c ∧
    step twoNodes c (.create false [true] (filePath "/g" (by decide))) = some c' ∧
    (victims [true] (c.node false).queue).1 = [cstr "/mnt/ssd/f"] ∧
    (c.disk false).entry (cstr "/mnt/ssd/f") = none ∧
    (c'.disk false).entry (cstr "/mnt/ssd/f") = some (.link (cstr "/mnt/hdd/f")) ∧
    (c'.disk false).entry (cstr "/mnt/hdd/f") = none := by
  have htest : ((run (step twoNodes) (mountedCluster twoNodes) takenOver).any fun c =>
      (step twoNodes c (.create false [true] (filePath "/g" (by decide)))).any fun c' =>
        decide ((victims [true] (c.node false).queue).1 = [cstr "/mnt/ssd/f"] ∧
          (c.disk false).entry (cstr "/mnt/ssd/f") = none ∧
          (c'.disk false).entry (cstr "/mnt/ssd/f") = some (.link (cstr "/mnt/hdd/f")) ∧
          (c'.disk false).entry (cstr "/mnt/hdd/f") = none)) = true := by decide +kernel
  obtain ⟨c, hrun, hc⟩ := exists_run_of_any htest
  obtain ⟨c', hstep, hc'⟩ := (Option.any_eq_true _ _).mp hc
  exact ⟨c, c', hrun, hstep, of_decide_eq_true hc'⟩

end Directories

end FusionFS
