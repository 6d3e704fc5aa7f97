import FusionFS.Ownership

/-!
# Two tiers that look like one

On one node the files move between SSD and HDD as space runs out. What programs see is a file system
without tiers: a file is on exactly one of them, and has the contents last written.
-/

namespace FusionFS

open SecondChance Transition

/-- A file system with one tier: names, files and open handles. -/
structure OneTier where
  files : Bytes → Option Nat
  data : Nat → Bytes
  nextIno : Nat
  fds : Nat → Option Handle
  nextFd : Nat

namespace OneTier

variable {Node : Type}

def addHandle (s : OneTier) (h : Handle) : OneTier :=
  { s with fds := Function.update s.fds s.nextFd (some h), nextFd := s.nextFd + 1 }

def setData (s : OneTier) (ino : Nat) (content : Bytes) : OneTier :=
  { s with data := Function.update s.data ino content }

/-- The meaning of the operations when all space is alike. -/
def step (s : OneTier) : Op Node → Option OneTier
  | .create _ _ path =>
      some (({ s with
        files := Function.update s.files path.bytes (some s.nextIno)
        data := Function.update s.data s.nextIno []
        nextIno := s.nextIno + 1 } : OneTier).addHandle ⟨path, s.nextIno, .wronly⟩)
  | .getattr _ _ _ => some s
  | .open _ _ path mode => (s.files path.bytes).map fun ino => s.addHandle ⟨path, ino, mode⟩
  | .read _ fd _ _ => (s.fds fd).bind fun h => if h.mode = .wronly then none else some s
  | .write _ fd off buf => (s.fds fd).bind fun h =>
      if h.mode = .rdonly then none else some (s.setData h.ino (pwrite (s.data h.ino) off buf))
  | .truncate _ path size => (s.files path.bytes).map fun ino =>
      s.setData ino (resize (s.data ino) size)
  | .release _ _ _ fd => (s.fds fd).map fun _ => { s with fds := Function.update s.fds fd none }
  | .unlink _ _ path => some { s with files := Function.update s.files path.bytes none }

end OneTier

variable {Node : Type} [DecidableEq Node] {net : Net Node}

/-- The file systems start alike, without a file. -/
def oneTierStart (n : Node) (c : Cluster Node) : OneTier :=
  ⟨fun _ => none, (c.disk n).data, (c.disk n).nextIno, (c.node n).fds, (c.node n).nextFd⟩

/-- A regular file on the SSD, once in the queue, and nothing on the HDD. -/
def OnSsd (net : Net Node) (n : Node) (c : Cluster Node) (path : Bytes) (ino : Nat) : Prop :=
  c.slot net n path = ⟨some (.file ino), none⟩ ∧
    (names (c.node n).queue).count (net.root.fullpath path) = 1

/-- A link on the SSD, the file on the HDD, and not in the queue. -/
def OnHdd (net : Net Node) (n : Node) (c : Cluster Node) (path : Bytes) (ino : Nat) : Prop :=
  c.slot net n path = ⟨some (.link (net.root.hddpath path)), some (.file ino)⟩ ∧
    net.root.fullpath path ∉ names (c.node n).queue

/-- Every file is on one tier, and opening it shows the contents it would have without tiers. -/
structure Transparent (net : Net Node) (n : Node) (c : Cluster Node) (s : OneTier) : Prop where
  place : ∀ path ino, s.files path = some ino →
    Xor (OnSsd net n c path ino) (OnHdd net n c path ino)
  seen : ∀ (p : FilePath) ino, s.files p.bytes = some ino → ∀ full mode,
    ∃ fd c' h, fusionOpen net n full p mode c = some (fd, c') ∧ (c'.node n).fds fd = some h ∧
      (c'.disk n).data h.ino = s.data ino ∧
      ∀ off size, mode ≠ .wronly →
        fusionRead n fd off size c' = some (((s.data ino).drop off).take size)

/-- The operations of one node. It creates a file where there is none, in a directory that is there,
and not below the path of its own SSD directory. -/
def OneNode (net : Net Node) (n : Node) (c : Cluster Node) (op : Op Node) : Prop :=
  op.node = n ∧ match op with
    | .create _ _ path => ¬ net.root.ssd <+: path.bytes ∧ (c.zht path.dirname).isSome ∧
        (c.disk n).lstat (net.root.fullpath path.bytes) = false
    | _ => True

instance (net : Net Node) (n : Node) (c : Cluster Node) (op : Op Node) :
    Decidable (OneNode net n c op) := by
  cases op <;> unfold OneNode <;> infer_instance

/-! ### The invariant -/

/-- The two tiers hold the files of the file system without tiers. -/
structure Tiering (net : Net Node) (n : Node) (c : Cluster Node) (s : OneTier) : Prop where
  sound : Sound net c
  nodup : (names (c.node n).queue).Nodup
  live : ∀ path ino, s.files path = some ino → OnSsd net n c path ino ∨ OnHdd net n c path ino
  absent : ∀ path, s.files path = none →
    c.slot net n path = ⟨none, none⟩ ∧ net.root.fullpath path ∉ names (c.node n).queue
  owned : ∀ path ino, s.files path = some ino → c.zht path = some (net.ip n) ∧
    ¬ net.root.ssd <+: path ∧ path.getLast? ≠ some slash
  idle : ∀ m, m ≠ n → ∀ path, c.slot net m path = ⟨none, none⟩
  data : (c.disk n).data = s.data
  nextIno : (c.disk n).nextIno = s.nextIno
  fds : (c.node n).fds = s.fds
  nextFd : (c.node n).nextFd = s.nextFd

omit [DecidableEq Node] in
theorem onSsd_iff {n : Node} {c : Cluster Node} {path : Bytes} {ino : Nat}
    (h : (names (c.node n).queue).Nodup) : OnSsd net n c path ino ↔
      c.slot net n path = ⟨some (.file ino), none⟩ ∧
        net.root.fullpath path ∈ names (c.node n).queue := by
  refine and_congr_right fun _ => ⟨fun hcount => ?_, List.count_eq_one_of_mem h⟩
  exact List.count_pos_iff.mp (by omega)

theorem Slot.ino_regular (i : Nat) : (⟨some (.file i), none⟩ : Slot).ino = some i := rfl

theorem Slot.ino_tiered (t : Bytes) (i : Nat) : (⟨some (.link t), some (.file i)⟩ : Slot).ino = some i :=
  rfl

/-- Only the file at one path changes. -/
structure Elsewhere (net : Net Node) (n : Node) (path : Bytes) (c c' : Cluster Node) : Prop where
  slot : ∀ q, q ≠ path → c'.slot net n q = c.slot net n q
  queue : ∀ q, q ≠ path → (net.root.fullpath q ∈ names (c'.node n).queue ↔
    net.root.fullpath q ∈ names (c.node n).queue)
  zht : ∀ q, q ≠ path → q.getLast? ≠ some slash → c'.zht q = c.zht q
  idle : ∀ m, m ≠ n → ∀ q, c.slot net m q = ⟨none, none⟩ → c'.slot net m q = ⟨none, none⟩

namespace Tiering

variable {n : Node} {c c' : Cluster Node} {s s' : OneTier} {path : Bytes} {ino : Nat}

omit [DecidableEq Node] in
theorem slot_ino (h : Tiering net n c s) (path : Bytes) :
    (c.slot net n path).ino = s.files path := by
  cases hfile : s.files path with
  | none =>
      rw [(h.absent path hfile).1]
      rfl
  | some ino =>
      rcases h.live path ino hfile with hplace | hplace
      · rw [hplace.1, Slot.ino_regular]
      · rw [hplace.1, Slot.ino_tiered]

omit [DecidableEq Node] in
theorem openIno (h : Tiering net n c s) (path : Bytes) :
    (c.disk n).openIno (net.root.fullpath path) = s.files path := by
  rw [(h.sound.sane n).openIno_fullpath]
  exact h.slot_ino path

omit [DecidableEq Node] in
theorem openIno_hddpath (d : Disk) (path : Bytes) {i : Nat}
    (hhdd : (d.slot net.root path).hdd = some (.file i)) :
    d.openIno (net.root.hddpath path) = some i :=
  Disk.openIno_file hhdd

omit [DecidableEq Node] in
theorem isSymlinkSsd_iff (h : Tiering net n c s) (path : Bytes) :
    isSymlinkSsd (c.disk n) (net.root.fullpath path) = true ↔ ∃ ino, OnHdd net n c path ino := by
  constructor
  · intro hsym
    obtain ⟨t, ht⟩ := link_of_isSymlinkSsd hsym
    cases hfile : s.files path with
    | none =>
        have habsent := (h.absent path hfile).1
        rw [Cluster.slot] at habsent
        rw [habsent] at ht
        cases ht
    | some ino =>
        rcases h.live path ino hfile with hplace | hplace
        · have hssd := hplace.1
          rw [Cluster.slot] at hssd
          rw [hssd] at ht
          cases ht
        · exact ⟨ino, hplace⟩
  · rintro ⟨ino, hslot, -⟩
    have hssd : (c.disk n).entry (net.root.fullpath path)
        = some (.link (net.root.hddpath path)) := congrArg Slot.ssd hslot
    have hhdd : (c.disk n).entry (net.root.hddpath path) = some (.file ino) :=
      congrArg Slot.hdd hslot
    rw [isSymlinkSsd, hssd, net.root.getHddPath_fullpath]
    exact Disk.access_file hhdd

omit [DecidableEq Node] in
theorem onSsd_or_onHdd_iff (h : Tiering net n c s) {q : Bytes} {i : Nat} :
    (OnSsd net n c q i ∨ OnHdd net n c q i) ↔
      (c.slot net n q = ⟨some (.file i), none⟩ ∧
          net.root.fullpath q ∈ names (c.node n).queue) ∨
        (c.slot net n q = ⟨some (.link (net.root.hddpath q)), some (.file i)⟩ ∧
          net.root.fullpath q ∉ names (c.node n).queue) := by
  rw [onSsd_iff h.nodup, OnHdd]

omit [DecidableEq Node] in
/-- The path of a step may change in every way that leaves it in order. -/
theorem change (h : Tiering net n c s) (path : Bytes) (hsound : Sound net c')
    (hnodup : (names (c'.node n).queue).Nodup) (helse : Elsewhere net n path c c')
    (hfiles : ∀ q, q ≠ path → s'.files q = s.files q)
    (hlive : ∀ ino, s'.files path = some ino → (OnSsd net n c' path ino ∨ OnHdd net n c' path ino) ∧
      c'.zht path = some (net.ip n) ∧ ¬ net.root.ssd <+: path ∧ path.getLast? ≠ some slash)
    (habsent : s'.files path = none → c'.slot net n path = ⟨none, none⟩ ∧
      net.root.fullpath path ∉ names (c'.node n).queue)
    (hdata : (c'.disk n).data = s'.data) (hnextIno : (c'.disk n).nextIno = s'.nextIno)
    (hfds : (c'.node n).fds = s'.fds) (hnextFd : (c'.node n).nextFd = s'.nextFd) :
    Tiering net n c' s' where
  sound := hsound
  nodup := hnodup
  live := by
    intro q i hq
    by_cases hne : q = path
    · subst hne
      exact (hlive i hq).1
    · rw [hfiles q hne] at hq
      have hplace := h.live q i hq
      rw [h.onSsd_or_onHdd_iff] at hplace
      rwa [onSsd_iff hnodup, OnHdd, helse.slot q hne, helse.queue q hne]
  absent := by
    intro q hq
    by_cases hne : q = path
    · subst hne
      exact habsent hq
    · rw [hfiles q hne] at hq
      rw [helse.slot q hne, helse.queue q hne]
      exact h.absent q hq
  owned := by
    intro q i hq
    by_cases hne : q = path
    · subst hne
      exact (hlive i hq).2
    · rw [hfiles q hne] at hq
      obtain ⟨hz, hssd, hleaf⟩ := h.owned q i hq
      exact ⟨(helse.zht q hne hleaf).trans hz, hssd, hleaf⟩
  idle := fun m hm q => helse.idle m hm q (h.idle m hm q)
  data := hdata
  nextIno := hnextIno
  fds := hfds
  nextFd := hnextFd

omit [DecidableEq Node] in
theorem of_same_files (h : Tiering net n c s) (hsound : Sound net c')
    (hslot : ∀ m q, c'.slot net m q = c.slot net m q)
    (hqueue : names (c'.node n).queue = names (c.node n).queue) (hzht : c'.zht = c.zht)
    (hfiles : s'.files = s.files) (hdata : (c'.disk n).data = s'.data)
    (hnextIno : (c'.disk n).nextIno = s'.nextIno) (hfds : (c'.node n).fds = s'.fds)
    (hnextFd : (c'.node n).nextFd = s'.nextFd) : Tiering net n c' s' where
  sound := hsound
  nodup := hqueue ▸ h.nodup
  live := by
    intro q i hq
    rw [OnSsd, OnHdd, hslot, hqueue]
    exact h.live q i (hfiles ▸ hq)
  absent := by
    intro q hq
    rw [hslot, hqueue]
    exact h.absent q (hfiles ▸ hq)
  owned := by
    intro q i hq
    rw [hzht]
    exact h.owned q i (hfiles ▸ hq)
  idle := fun m hm q => (hslot m q).trans (h.idle m hm q)
  data := hdata
  nextIno := hnextIno
  fds := hfds
  nextFd := hnextFd

theorem setDisk_same (h : Tiering net n c s) (k : Node) {d : Disk} (hsane : d.Sane net.root)
    (hslot : d.slot net.root = (c.disk k).slot net.root) (hdata : d.data = (c.disk k).data)
    (hnextIno : d.nextIno = (c.disk k).nextIno) : Tiering net n (c.setDisk k d) s := by
  refine h.of_same_files (h.sound.setDisk hsane) (fun m q => ?_) (by simp) rfl rfl ?_ ?_
    (by simp [h.fds]) (by simp [h.nextFd])
  · by_cases hmk : m = k
    · subst hmk
      rw [Cluster.slot_setDisk_self, hslot]
      rfl
    · rw [Cluster.slot_setDisk_of_ne _ hmk]
  · by_cases hnk : n = k
    · subst hnk
      rw [Cluster.disk_setDisk_self, hdata, h.data]
    · rw [Cluster.disk_setDisk_of_ne _ _ _ _ hnk, h.data]
  · by_cases hnk : n = k
    · subst hnk
      rw [Cluster.disk_setDisk_self, hnextIno, h.nextIno]
    · rw [Cluster.disk_setDisk_of_ne _ _ _ _ hnk, h.nextIno]

/-- So may the places of a path that has no file, if they stay empty. -/
theorem setDisk_of_absent (h : Tiering net n c s) {k : Node} {d : Disk} {x : Bytes} {slot : Slot}
    (hx : s.files x = none) (hsane : d.Sane net.root)
    (hmoved : Disk.Moved net.root (c.disk k) d x slot) (hslot : slot = ⟨none, none⟩) :
    Tiering net n (c.setDisk k d) s := by
  have habsent : (c.disk k).slot net.root x = ⟨none, none⟩ := by
    by_cases hkn : k = n
    · exact hkn ▸ (h.absent x hx).1
    · exact h.idle k hkn x
  refine h.setDisk_same k hsane ?_ hmoved.data hmoved.nextIno
  rw [hmoved.slot, hslot]
  exact Function.update_eq_self_iff.mpr habsent.symm

/-! ### Eviction -/

omit [DecidableEq Node] in
/-- The eviction loop moves files between the tiers, and keeps those on the HDD there. -/
theorem of_evicted (h : Tiering net n c s) {full : List Bool}
    (hev : Evicted net n (victims full (c.node n).queue).1 c c')
    (hqueue : (c'.node n).queue = (victims full (c.node n).queue).2) :
    Tiering net n c' s ∧ ∀ path ino, OnHdd net n c path ino → OnHdd net n c' path ino := by
  have hperm := names_perm_of_victims full (c.node n).queue
  have hparts := List.nodup_append.mp (hperm.nodup_iff.mp h.nodup)
  have hnodup : (names (c'.node n).queue).Nodup := hqueue ▸ hparts.2.1
  have hin : ∀ f, f ∈ names (c.node n).queue ↔
      f ∈ (victims full (c.node n).queue).1 ∨ f ∈ names (c'.node n).queue := by
    intro f
    rw [hqueue, hperm.mem_iff, List.mem_append]
  have hout : ∀ f, f ∈ (victims full (c.node n).queue).1 → f ∉ names (c'.node n).queue := by
    intro f hf hf'
    rw [hqueue] at hf'
    exact hparts.2.2 f hf f hf' rfl
  have hhdd : ∀ path ino, OnHdd net n c path ino → OnHdd net n c' path ino := by
    rintro path ino ⟨hslot, hnot⟩
    rw [hin, not_or] at hnot
    exact ⟨(hev.kept path hnot.1).trans hslot, hnot.2⟩
  refine ⟨⟨?_, hnodup, ?_, ?_, ?_, ?_, ?_, ?_, ?_, ?_⟩, hhdd⟩
  · exact h.sound.of_evicted hev fun f hf => (hin f).mpr (Or.inr hf)
  · intro path ino hfile
    rcases h.live path ino hfile with hplace | hplace
    · rw [onSsd_iff h.nodup, hin] at hplace
      obtain ⟨hslot, hvictim | hleft⟩ := hplace
      · -- a victim is on the HDD now
        refine Or.inr ⟨?_, hout _ hvictim⟩
        have hdir : (c.disk n).dir (net.root.fullpath path) = false := by
          refine (h.sound.sane n).ssd_dir path ?_
          rw [← Cluster.slot, hslot]
          simp
        obtain ⟨t, ht⟩ := hev.link path hdir (Or.inl hvictim)
        have hino := hev.ino path ino (by rw [hslot, Slot.ino_regular])
        have htarget := hev.sane.ssd_link path t ht
        generalize c'.slot net n path = slot at ht hino
        obtain ⟨ssd, hdd⟩ := slot
        cases ht
        cases htarget
        cases hdd with
        | none => cases hino
        | some e =>
            cases e with
            | file j =>
                cases hino
                rfl
            | link u => cases hino
      · left
        rw [onSsd_iff hnodup]
        exact ⟨(hev.kept path fun hv => hout _ hv hleft).trans hslot, hleft⟩
    · exact Or.inr (hhdd path ino hplace)
  · intro path hfile
    obtain ⟨hslot, hnot⟩ := h.absent path hfile
    rw [hin, not_or] at hnot
    exact ⟨(hev.kept path hnot.1).trans hslot, hnot.2⟩
  · intro path ino hfile
    obtain ⟨hz, hssd, hleaf⟩ := h.owned path ino hfile
    refine ⟨?_, hssd, hleaf⟩
    rw [hev.zht, if_neg, hz]
    intro hv
    obtain ⟨q, rfl⟩ := h.sound.queue n _ (mem_names_of_mem_victims hv)
    exact hssd (List.prefix_append _ _)
  · intro m hm path
    rw [Cluster.slot, Cluster.disk, hev.other m hm]
    exact h.idle m hm path
  · rw [hev.data, h.data]
  · rw [hev.nextIno, h.nextIno]
  · rw [hev.fds, h.fds]
  · rw [hev.nextFd, h.nextFd]

/-! ### The operations -/

variable {full : List Bool} {junk : Bytes} {p : FilePath}

omit [DecidableEq Node] in
theorem files_eq_none (h : Tiering net n c s) {path : Bytes}
    (hnone : (c.slot net n path).ssd = none) : s.files path = none := by
  rw [← h.slot_ino, Slot.ino, hnone]

theorem create (h : Tiering net n c s) {fd : Nat} (hop : OneNode net n c (.create n full p))
    (hc : fusionCreate net n full p c = some (fd, c')) :
    ∃ s', OneTier.step s (.create n full p) = some s' ∧ Tiering net n c' s' := by
  obtain ⟨-, hssd, hparent, hlstat⟩ := hop
  have hsound : Sound net c' := by
    have hstep : FusionFS.step net c (.create n full p) = some c' := by simp [FusionFS.step, hc]
    exact h.sound.step hstep
  obtain ⟨c₁, ino, hev, hw, hother, hfd, hq, hfds, hnext, hzht⟩ := h.sound.create hc
  obtain ⟨h₂, -⟩ := h.of_evicted (hev.setQueue (victims full (c.node n).queue).2) (by simp)
  have hnone : s.files p.bytes = none := by
    refine h.files_eq_none ?_
    have hentry : (c.disk n).entry (net.root.fullpath p.bytes) = none := by
      simp only [Disk.lstat, Bool.or_eq_false_iff] at hlstat
      simpa using hlstat.1
    exact hentry
  obtain ⟨habsent, hnotin⟩ := h₂.absent p.bytes hnone
  have hslot₁ : c₁.slot net n p.bytes = ⟨none, none⟩ := by simpa [Cluster.slot] using habsent
  obtain ⟨hslot, hino, hnextIno⟩ := hw.of_absent hslot₁
  rw [hev.nextIno, h.nextIno] at hino hnextIno
  have hq' : (c'.node n).queue = insque (net.root.fullpath p.bytes)
      ((c₁.setQueue n (victims full (c.node n).queue).2).node n).queue := by simpa using hq
  refine ⟨_, rfl, h₂.change p.bytes hsound (hq' ▸ nodup_names_insque h₂.nodup) ?_ ?_ ?_ ?_ ?_ hnextIno
    ?_ ?_⟩
  · refine ⟨fun q hne => ?_, fun q hne => ?_, fun q hne hleaf => ?_, fun m hm q hidle => ?_⟩
    · rw [Cluster.slot, hw.elsewhere hne]
      simp [Cluster.slot]
    · rw [hq', mem_names_insque, net.root.fullpath_inj, or_iff_right hne]
    · have hdir : q ≠ dirOf p.bytes := by
        rintro rfl
        exact hleaf p.getLast?_dirname
      rw [hzht, createEntry_of_ne hdir hne]
      rfl
    · rw [Cluster.slot, Cluster.disk, hother m hm]
      exact h.idle m hm q
  · exact fun q hne => Function.update_of_ne hne ..
  · intro i hi
    obtain rfl : ino = i := by simpa [OneTier.addHandle, hino] using hi
    refine ⟨Or.inl ((onSsd_iff (hq' ▸ nodup_names_insque h₂.nodup)).mpr ⟨hslot, ?_⟩), ?_, hssd, p.leaf⟩
    · rw [hq', mem_names_insque]
      exact Or.inl rfl
    · have hdir : (c₁.zht (dirOf p.bytes)).isSome := by
        rw [hev.zht]
        split
        · rfl
        · exact hparent
      obtain ⟨v, hv⟩ := Option.isSome_iff_exists.mp hdir
      rw [hzht, createEntry, hv]
      exact zhtInsert_self
  · intro hfile
    simp [OneTier.addHandle] at hfile
  · rw [hw.data, hev.data, h.data, hino]
    rfl
  · rw [hfds, hfd, h.fds, h.nextFd, hino]
    rfl
  · rw [hnext, h.nextFd]
    rfl

omit [DecidableEq Node] in
theorem openIno_remotePath_of_absent {d : Disk} {x : Bytes}
    (h : d.slot net.root x = ⟨none, none⟩) (hs : d.Sane net.root) (flag : Bool) :
    d.openIno (remotePath (net.root.fullpath x) flag) = none := by
  cases flag with
  | false =>
      rw [remotePath, if_neg Bool.false_ne_true, hs.openIno_fullpath, h]
      rfl
  | true =>
      have hentry : d.entry (net.root.hddpath x) = none := congrArg Slot.hdd h
      have hresolve : d.resolve maxSymlinks (net.root.hddpath x) = some (net.root.hddpath x) := by
        rw [show maxSymlinks = 39 + 1 from rfl, Disk.resolve, hentry]
      rw [remotePath, if_pos rfl, net.root.getHddPath_fullpath]
      simp [Disk.openIno, hresolve, hentry]

theorem getattr (h : Tiering net n c s) (junk x : Bytes) :
    Tiering net n (fusionGetattr net n junk x c).2 s := by
  rcases h.sound.getattr n junk x with heq | ⟨-, -, heq⟩ | ⟨val, m, j, i, d, hval, hfetch, hm, hj, -, -⟩
  · rwa [heq]
  · rw [heq]
    have hdata : ((c.disk n).mkdir (net.root.fullpath x)).data = (c.disk n).data ∧
        ((c.disk n).mkdir (net.root.fullpath x)).nextIno = (c.disk n).nextIno := by
      unfold Disk.mkdir
      split <;> exact ⟨rfl, rfl⟩
    exact h.setDisk_same n ((h.sound.sane n).mkdir x) (Disk.slot_mkdir _ _) hdata.1 hdata.2
  · -- a file of this node is there, and of another path no node has anything
    exfalso
    cases hfile : s.files x with
    | some ino =>
        obtain ⟨hz, -, -⟩ := h.owned x ino hfile
        obtain rfl := Option.some.inj (hz.symm.trans hval)
        have haccess : (c.disk n).access (net.root.fullpath x) = true :=
          (h.sound.sane n).access_of_ino (i := ino) ((h.slot_ino x).trans hfile)
        rw [realIp_of_notMem (net.slash_notMem_ip n)] at hfetch
        rcases hfetch with hno | ⟨-, hne⟩
        · rw [haccess] at hno
          cases hno
        · exact hne rfl
    | none =>
        have hslot : (c.disk m).slot net.root x = ⟨none, none⟩ := by
          by_cases hmn : m = n
          · exact hmn ▸ (h.absent x hfile).1
          · exact h.idle m hmn x
        rw [openIno_remotePath_of_absent hslot (h.sound.sane m)] at hj
        cases hj

theorem «open» (h : Tiering net n c s) {fd : Nat} {mode : OpenMode}
    (hc : fusionOpen net n full p mode c = some (fd, c')) :
    ∃ ino, s.files p.bytes = some ino ∧ fd = s.nextFd ∧
      Tiering net n c' (s.addHandle ⟨p, ino, mode⟩) := by
  have hsound : Sound net c' := by
    have hstep : FusionFS.step net c (.open n full p mode) = some c' := by simp [FusionFS.step, hc]
    exact h.sound.step hstep
  obtain ⟨c₁, q, ino, hprom, hino, hdisk, hzht, hother, hfd, hq, hfds, hnext⟩ := h.sound.open hc
  rw [h.nextFd] at hfd hnext
  rw [h.fds, hfd] at hfds
  have hidle : ∀ m, m ≠ n → ∀ x, c.slot net m x = ⟨none, none⟩ → c'.slot net m x = ⟨none, none⟩ := by
    intro m hm x hx
    rwa [Cluster.slot, Cluster.disk, hother m hm]
  have hslot' : ∀ x, c'.slot net n x = c₁.slot net n x := fun x => by
    rw [Cluster.slot, hdisk n, Cluster.slot]
  rcases hprom with ⟨hsym, rfl, rfl⟩ | ⟨hsym, rfl, c₀, d, hev, rfl, hmoved, -, -⟩
  · have hfile : s.files p.bytes = some ino := (h.slot_ino p.bytes).symm.trans hino
    have hplace : OnSsd net n c₁ p.bytes ino := by
      refine (h.live p.bytes ino hfile).resolve_right fun hhdd => ?_
      rw [(h.isSymlinkSsd_iff p.bytes).mpr ⟨ino, hhdd⟩] at hsym
      cases hsym
    have hin := ((onSsd_iff h.nodup).mp hplace).2
    have hnames : names (c'.node n).queue = names (c₁.node n).queue := by
      rw [hq, names_insque, if_pos hin]
    refine ⟨ino, hfile, hfd, h.of_same_files hsound (fun m x => ?_) hnames hzht rfl ?_ ?_ hfds hnext⟩
    · rw [Cluster.slot, hdisk m, Cluster.slot]
    · rw [hdisk n, h.data]
      rfl
    · rw [hdisk n, h.nextIno]
      rfl
  · obtain ⟨i, hhdd⟩ := (h.isSymlinkSsd_iff p.bytes).mp hsym
    have hev' := hev.setQueue (victims full (c.node n).queue).2
    obtain ⟨h₂, hkeep⟩ := h.of_evicted hev' (by simp)
    have hhdd₂ := hkeep p.bytes i hhdd
    have hslot₀ : c₀.slot net n p.bytes
        = ⟨some (.link (net.root.hddpath p.bytes)), some (.file i)⟩ := by
      simpa [Cluster.slot] using hhdd₂.1
    have hd : d.slot net.root p.bytes = ⟨some (.file i), none⟩ := by rw [hmoved.at, hslot₀]; rfl
    obtain rfl : i = ino := by
      rw [Cluster.slot_setDisk_self, hd, Slot.ino_regular] at hino
      exact Option.some.inj hino
    have hfile : s.files p.bytes = some i := by
      rw [← h₂.slot_ino, hhdd₂.1, Slot.ino_tiered]
    have hq' : (c'.node n).queue = insque (net.root.fullpath p.bytes)
        ((c₀.setQueue n (victims full (c.node n).queue).2).node n).queue := by simpa using hq
    have hnodup : (names (c'.node n).queue).Nodup := hq' ▸ nodup_names_insque h₂.nodup
    refine ⟨i, hfile, hfd, h₂.change p.bytes hsound hnodup ?_ (fun _ _ => rfl) ?_ ?_ ?_ ?_ hfds hnext⟩
    · refine ⟨fun x hne => ?_, fun x hne => ?_, fun x _ _ => ?_, fun m hm x _ => ?_⟩
      · rw [hslot', Cluster.slot_setDisk_self, hmoved.elsewhere hne]
        simp [Cluster.slot]
      · rw [hq', mem_names_insque, net.root.fullpath_inj, or_iff_right hne]
      · rw [hzht]
        rfl
      · exact hidle m hm x (h.idle m hm x)
    · intro j hj
      obtain rfl : i = j := Option.some.inj (hfile.symm.trans hj)
      obtain ⟨hz, howned⟩ := h₂.owned p.bytes i hfile
      refine ⟨Or.inl ((onSsd_iff hnodup).mpr ⟨?_, ?_⟩), ?_, howned⟩
      · rw [hslot', Cluster.slot_setDisk_self, hd]
      · rw [hq', mem_names_insque]
        exact Or.inl rfl
      · rw [hzht]
        exact hz
    · intro hnone
      have hnone' : s.files p.bytes = none := hnone
      rw [hfile] at hnone'
      cases hnone'
    · rw [hdisk n, Cluster.disk_setDisk_self, hmoved.data, hev.data, h.data]
      rfl
    · rw [hdisk n, Cluster.disk_setDisk_self, hmoved.nextIno, hev.nextIno, h.nextIno]
      rfl

theorem setData (h : Tiering net n c s) (ino : Nat) (content : Bytes) :
    Tiering net n (c.setDisk n ((c.disk n).setData ino content)) (s.setData ino content) := by
  refine h.of_same_files (h.sound.setData n ino content) (fun m q => ?_) (by simp) rfl rfl ?_ ?_
    (by simpa [OneTier.setData] using h.fds) (by simpa [OneTier.setData] using h.nextFd)
  · by_cases hmn : m = n
    · subst hmn
      rw [Cluster.slot_setDisk_self, Disk.slot_setData]
      rfl
    · rw [Cluster.slot_setDisk_of_ne _ hmn]
  · rw [Cluster.disk_setDisk_self, Disk.setData, h.data]
    rfl
  · rw [Cluster.disk_setDisk_self, Disk.nextIno_setData, h.nextIno]
    rfl

theorem truncate (h : Tiering net n c s) {size : Nat}
    (hc : fusionTruncate net n p size c = some c') :
    ∃ ino, s.files p.bytes = some ino ∧
      Tiering net n c' (s.setData ino (resize (s.data ino) size)) := by
  obtain ⟨i, hi, rfl⟩ := truncate_cases hc
  have hfile : s.files p.bytes = some i := by
    cases hsym : isSymlinkSsd (c.disk n) (net.root.fullpath p.bytes) with
    | false =>
        rw [hsym, if_neg Bool.false_ne_true, h.openIno] at hi
        exact hi
    | true =>
        obtain ⟨j, hhdd⟩ := (h.isSymlinkSsd_iff p.bytes).mp hsym
        have hopen := openIno_hddpath (c.disk n) p.bytes (congrArg Slot.hdd hhdd.1)
        rw [hsym, if_pos rfl, net.root.getHddPath_fullpath, hopen] at hi
        rw [← hi, ← h.slot_ino, hhdd.1, Slot.ino_tiered]
  rw [h.data]
  exact ⟨i, hfile, h.setData i _⟩

theorem closeHandle (h : Tiering net n c s) (fd : Nat) : Tiering net n (c.setHandle n fd none)
    { s with fds := Function.update s.fds fd none } := by
  refine h.of_same_files (h.sound.setHandle n fd none) (fun m q => by simp [Cluster.slot]) (by simp)
    rfl rfl (by simpa using h.data) (by simpa using h.nextIno) (by simp [h.fds])
    (by simpa using h.nextFd)

/-- A removal on behalf of a path that has no file finds nothing to remove. -/
theorem ffsRmfile (h : Tiering net n c s) {x : Bytes} (hx : s.files x = none) (addr : Bytes)
    (flag : Bool) :
    Tiering net n (FusionFS.ffsRmfile net addr (remotePath (net.root.fullpath x) flag) c) s := by
  have hsound := h.sound.ffsRmfile addr x flag
  rcases ffsRmfile_cases net addr x flag c with ⟨-, heq⟩ | ⟨k, d, -, heq, hmoved⟩
  · rwa [heq]
  · rw [heq] at hsound ⊢
    have hslot : c.slot net k x = ⟨none, none⟩ := by
      by_cases hkn : k = n
      · exact hkn ▸ (h.absent x hx).1
      · exact h.idle k hkn x
    refine h.setDisk_of_absent hx (by simpa using hsound.sane k) hmoved ?_
    rw [hslot, ite_self]

theorem unlinkAbsent (h : Tiering net n c s) {x : Bytes} (hx : s.files x = none) :
    Tiering net n (c.setDisk n ((c.disk n).unlink (net.root.fullpath x))) s := by
  refine h.setDisk_of_absent hx ((h.sound.sane n).unlink_ssd x)
    (Disk.moved_setEntry_ssd (c.disk n) x none) ?_
  rw [← Cluster.slot, (h.absent x hx).1]

theorem rmelemAbsent (h : Tiering net n c s) {x : Bytes} (hx : s.files x = none) :
    Tiering net n (c.setQueue n (rmelem (net.root.fullpath x) (c.node n).queue)) s := by
  have hnotin := (h.absent x hx).2
  have hnames : names (rmelem (net.root.fullpath x) (c.node n).queue) = names (c.node n).queue := by
    rw [names_rmelem, List.filter_eq_self]
    intro f hf
    simpa using fun heq : f = net.root.fullpath x => hnotin (heq ▸ hf)
  have hsound : Sound net (c.setQueue n (rmelem (net.root.fullpath x) (c.node n).queue)) :=
    h.sound.setQueue fun f hf => h.sound.queue n f (hnames ▸ hf)
  refine h.of_same_files hsound (fun m q => by simp [Cluster.slot]) (by simpa using hnames) rfl rfl
    (by simpa using h.data) (by simpa using h.nextIno) (by simpa using h.fds) (by simpa using h.nextFd)

omit [DecidableEq Node] in
theorem setZht (h : Tiering net n c s) {z : Zht}
    (hz : ∀ q ino, s.files q = some ino → z q = c.zht q) : Tiering net n (c.setZht z) s where
  sound := h.sound.setZht z
  nodup := h.nodup
  live := h.live
  absent := h.absent
  owned := fun q ino hq => ⟨(hz q ino hq).trans (h.owned q ino hq).1, (h.owned q ino hq).2⟩
  idle := h.idle
  data := h.data
  nextIno := h.nextIno
  fds := h.fds
  nextFd := h.nextFd

/-- A release of a file that is there is a local one; of a removed file it may register the path
again or drop a local copy, but there is none. -/
theorem release (h : Tiering net n c s) {fd : Nat}
    (hc : fusionRelease net n full junk fd c = some c') :
    (s.fds fd).isSome ∧ Tiering net n c' { s with fds := Function.update s.fds fd none } := by
  obtain ⟨hd, nodeaddr, hfd, rfl, hcase⟩ := release_cases hc
  have hclose := h.closeHandle fd
  refine ⟨by rw [← h.fds, hfd]; rfl, ?_⟩
  have hfile : net.ip n ≠ (realIp junk (zhtValue c.zht hd.path.bytes)).2 →
      s.files hd.path.bytes = none := by
    intro hremote
    cases hfile : s.files hd.path.bytes with
    | none => rfl
    | some ino =>
        obtain ⟨hz, -, -⟩ := h.owned hd.path.bytes ino hfile
        rw [zhtValue_of_eq hz, realIp_of_notMem (net.slash_notMem_ip n)] at hremote
        exact absurd rfl hremote
  rcases hcase with ⟨-, rfl⟩ | ⟨hremote, -, rfl⟩ | ⟨hremote, -, rfl⟩
  · exact hclose
  · have hnone := hfile hremote
    rw [publish, zhtUpdate_eq_insert]
    have hinsert : Tiering net n ((c.setHandle n fd none).setZht
        (zhtInsert (c.setHandle n fd none).zht hd.path.bytes (net.ip n)))
        { s with fds := Function.update s.fds fd none } := by
      refine hclose.setZht fun q ino hq => zhtInsert_of_ne ?_
      rintro rfl
      have hq' : s.files hd.path.bytes = some ino := hq
      rw [hnone] at hq'
      cases hq'
    have hrm := hinsert.ffsRmfile (x := hd.path.bytes) hnone
      (realIp junk (zhtValue c.zht hd.path.bytes)).2 (realIp junk (zhtValue c.zht hd.path.bytes)).1
    obtain ⟨hev, hqueue⟩ := hrm.sound.evictLoop n full
    exact (hrm.of_evicted hev hqueue).1
  · have hnone := hfile hremote
    have hdrop := (hclose.unlinkAbsent (x := hd.path.bytes) hnone).rmelemAbsent hnone
    simpa [dropCopy] using hdrop

theorem unlink_absent (h : Tiering net n c s) {ret : Int}
    (hc : fusionUnlink net n junk p c = some (ret, c')) (hfile : s.files p.bytes = none) :
    Tiering net n c' s := by
  rcases unlink_cases hc with ⟨-, -, rfl⟩ | ⟨val, z, oldaddr, c₁, c₂, -, hc₁, hz, -, hc₂, -, rfl⟩
  · exact h
  · have hsym : isSymlinkSsd (c.disk n) (net.root.fullpath p.bytes) = false := by
      rw [Bool.eq_false_iff, Ne, h.isSymlinkSsd_iff]
      rintro ⟨ino, hhdd⟩
      rw [← h.slot_ino, hhdd.1, Slot.ino_tiered] at hfile
      cases hfile
    rw [hsym, if_neg Bool.false_ne_true] at hc₁
    subst hc₁
    have hzht : Tiering net n ((c₁.setQueue n (rmelem (net.root.fullpath p.bytes)
        (c₁.node n).queue)).setZht (zhtRemove z p.bytes)) s := by
      refine (h.rmelemAbsent hfile).setZht fun q ino hq => ?_
      obtain ⟨-, -, hleaf⟩ := h.owned q ino hq
      have hne : q ≠ p.bytes := by
        rintro rfl
        rw [hfile] at hq
        cases hq
      have hdir : q ≠ p.dirname := by
        rintro rfl
        exact hleaf p.getLast?_dirname
      rw [zhtRemove_of_ne hne, zhtDelete_of_ne hz hdir]
      rfl
    have htier : Tiering net n c₂ s := by
      rw [hc₂]
      split
      · exact hzht
      · exact hzht.ffsRmfile hfile _ _
    exact htier.unlinkAbsent hfile

theorem unlink_file (h : Tiering net n c s) {ret : Int}
    (hc : fusionUnlink net n junk p c = some (ret, c')) (hfile : s.files p.bytes = some ino) :
    Tiering net n c' { s with files := Function.update s.files p.bytes none } := by
  have hsound : Sound net c' := by
    have hstep : FusionFS.step net c (.unlink n junk p) = some c' := by simp [FusionFS.step, hc]
    exact h.sound.step hstep
  obtain ⟨hz, -, -⟩ := h.owned p.bytes ino hfile
  rcases unlink_cases hc with ⟨hnone, -⟩ | ⟨val, z, oldaddr, c₁, c₂, hval, hc₁, hzd, rfl, hc₂, -, rfl⟩
  · rw [hz] at hnone
    cases hnone
  · obtain rfl := Option.some.inj (hz.symm.trans hval)
    rw [realIp_of_notMem (net.slash_notMem_ip n), if_pos rfl] at hc₂
    subst hc₂
    have hc₁' : c₁ = c ∨ c₁ = c.setDisk n ((c.disk n).unlink (net.root.hddpath p.bytes)) := by
      rw [hc₁]
      split
      · exact Or.inr (by rw [net.root.getHddPath_fullpath])
      · exact Or.inl rfl
    have hframe : (c₁.disk n).data = (c.disk n).data ∧
        (c₁.disk n).nextIno = (c.disk n).nextIno ∧ (c₁.node n).fds = (c.node n).fds ∧
        (c₁.node n).nextFd = (c.node n).nextFd := by
      rcases hc₁' with rfl | rfl
      · exact ⟨rfl, rfl, rfl, rfl⟩
      · simp [Disk.unlink]
    have hnohdd : (c₁.slot net n p.bytes).hdd = none := by
      rcases h.live p.bytes ino hfile with hplace | hplace
      · rcases hc₁' with rfl | rfl
        · rw [hplace.1]
        · rw [Cluster.slot_setDisk_self, Disk.unlink, Disk.slot_setEntry_hdd,
            Function.update_self]
      · rw [hc₁, if_pos ((h.isSymlinkSsd_iff p.bytes).mpr ⟨ino, hplace⟩),
          net.root.getHddPath_fullpath, Cluster.slot_setDisk_self, Disk.unlink,
          Disk.slot_setEntry_hdd, Function.update_self]
    refine h.change p.bytes hsound ?_ ?_ (fun q hne => Function.update_of_ne hne ..) ?_ ?_ ?_ ?_ ?_ ?_
    · simpa using nodup_names_rmelem h.nodup
    · refine ⟨fun q hne => unlink_slot_of_ne hc hne n, fun q hne => ?_, fun q hne hleaf => ?_,
        fun m hm q hidle => ?_⟩
      · have hqne : net.root.fullpath q ≠ net.root.fullpath p.bytes :=
          fun heq => hne (net.root.fullpath_inj.mp heq)
        simp [mem_names_rmelem, hqne]
      · have hdir : q ≠ p.dirname := by
          rintro rfl
          exact hleaf p.getLast?_dirname
        rw [Cluster.zht_setDisk, Cluster.zht_setZht, zhtRemove_of_ne hne, zhtDelete_of_ne hzd hdir]
      · rw [Cluster.slot_setDisk_of_ne _ hm]
        rcases hc₁' with rfl | rfl
        · simpa [Cluster.slot] using hidle
        · simpa [Cluster.slot, hm] using hidle
    · intro i hi
      simp at hi
    · intro _
      refine ⟨?_, by simp [mem_names_rmelem]⟩
      rw [Cluster.slot_setDisk_self, Disk.unlink, Disk.slot_setEntry_ssd, Function.update_self]
      have hhdd : (((c₁.setQueue n (rmelem (net.root.fullpath p.bytes)
          (c.node n).queue)).setZht (zhtRemove z p.bytes)).slot net n p.bytes).hdd = none := by
        simpa [Cluster.slot] using hnohdd
      exact congrArg (Slot.mk none) hhdd
    · simpa [Disk.unlink, hframe.1] using h.data
    · simpa [Disk.unlink, hframe.2.1] using h.nextIno
    · simpa [hframe.2.2.1] using h.fds
    · simpa [hframe.2.2.2] using h.nextFd

theorem unlink (h : Tiering net n c s) {ret : Int}
    (hc : fusionUnlink net n junk p c = some (ret, c')) :
    Tiering net n c' { s with files := Function.update s.files p.bytes none } := by
  cases hfile : s.files p.bytes with
  | none =>
      have hsame : ({ s with files := Function.update s.files p.bytes none } : OneTier) = s := by
        rw [Function.update_eq_self_iff.mpr hfile.symm]
      rw [hsame]
      exact h.unlink_absent hc hfile
  | some ino => exact h.unlink_file hc hfile

/-- Every operation does on two tiers what it does on one. -/
theorem step (h : Tiering net n c s) {op : Op Node} (hop : OneNode net n c op)
    (hstep : FusionFS.step net c op = some c') :
    ∃ s', OneTier.step s op = some s' ∧ Tiering net n c' s' := by
  obtain rfl : op.node = n := hop.1
  cases op with
  | create m full p =>
      obtain ⟨⟨fd, c''⟩, hc, rfl⟩ := Option.map_eq_some_iff.mp hstep
      exact h.create hop hc
  | getattr m junk x =>
      cases hstep
      exact ⟨s, rfl, h.getattr junk x⟩
  | «open» m full p mode =>
      obtain ⟨⟨fd, c''⟩, hc, rfl⟩ := Option.map_eq_some_iff.mp hstep
      obtain ⟨ino, hfile, -, htier⟩ := h.open hc
      exact ⟨_, by simp [OneTier.step, hfile], htier⟩
  | read m fd off size =>
      obtain ⟨bytes, hread, rfl⟩ := Option.map_eq_some_iff.mp hstep
      refine ⟨s, ?_, h⟩
      unfold fusionRead at hread
      have hfds : (c.node m).fds = s.fds := h.fds
      rw [hfds] at hread
      cases hfd : s.fds fd with
      | none => simp [hfd] at hread
      | some hd =>
          by_cases hmode : hd.mode = .wronly
          · simp [hfd, hmode] at hread
          · simp [OneTier.step, hfd, hmode]
  | write m fd off buf =>
      obtain ⟨hd, hfd, hmode, rfl⟩ := write_cases hstep
      have hfd' : s.fds fd = some hd := h.fds ▸ hfd
      have hdata : (c.disk m).data = s.data := h.data
      refine ⟨s.setData hd.ino (pwrite (s.data hd.ino) off buf),
        by simp [OneTier.step, hfd', hmode], ?_⟩
      rw [← hdata]
      exact h.setData hd.ino _
  | truncate m p size =>
      obtain ⟨ino, hfile, htier⟩ := h.truncate hstep
      exact ⟨_, by simp [OneTier.step, hfile], htier⟩
  | release m full junk fd =>
      obtain ⟨hsome, htier⟩ := h.release hstep
      obtain ⟨hd, hfd⟩ := Option.isSome_iff_exists.mp hsome
      exact ⟨_, by simp [OneTier.step, hfd], htier⟩
  | unlink m junk p =>
      obtain ⟨⟨ret, c''⟩, hc, rfl⟩ := Option.map_eq_some_iff.mp hstep
      exact ⟨_, rfl, h.unlink hc⟩

theorem exists_open (h : Tiering net n c s) {p : FilePath} {ino : Nat}
    (hfile : s.files p.bytes = some ino) (full : List Bool) (mode : OpenMode) :
    ∃ fd c', fusionOpen net n full p mode c = some (fd, c') := by
  have hcached : ∀ c₁ : Cluster Node, (c₁.disk n).openIno (net.root.fullpath p.bytes) = some ino →
      ∃ fd c', openCached net n p mode c₁ = some (fd, c') := by
    intro c₁ hino
    simp [openCached, hino]
  unfold fusionOpen
  by_cases hsym : isSymlinkSsd (c.disk n) (net.root.fullpath p.bytes) = true
  · obtain ⟨i, hhdd⟩ := (h.isSymlinkSsd_iff p.bytes).mp hsym
    obtain ⟨hev, hqueue⟩ := h.sound.evictLoop n full
    obtain ⟨h₀, hkeep⟩ := h.of_evicted hev hqueue
    have hplace := hkeep p.bytes i hhdd
    have hi : i = ino := by
      have := h₀.slot_ino p.bytes
      rw [hplace.1, Slot.ino_tiered, hfile] at this
      exact Option.some.inj this
    simp only [hsym, if_true]
    refine hcached _ ?_
    have hne : (((evictLoop net n full c).disk n).slot net.root p.bytes).ssd ≠ none := by
      rw [← Cluster.slot, hplace.1]
      simp
    have hsane := (h₀.sound.sane n).moveFileHdd hne
    rw [Cluster.disk_setDisk_self, hsane.openIno_fullpath,
      (Disk.moved_moveFileHdd _ p.bytes).at, ← Cluster.slot, hplace.1, ← hi]
    rfl
  · simp only [hsym]
    exact hcached c ((h.openIno p.bytes).trans hfile)

theorem transparent (h : Tiering net n c s) : Transparent net n c s where
  place := by
    intro path ino hfile
    have hexcl : ¬ (OnSsd net n c path ino ∧ OnHdd net n c path ino) := by
      rintro ⟨hssd, hhdd⟩
      have heq := hssd.1.symm.trans hhdd.1
      cases heq
    rcases h.live path ino hfile with hplace | hplace
    · exact Or.inl ⟨hplace, fun hhdd => hexcl ⟨hplace, hhdd⟩⟩
    · exact Or.inr ⟨hplace, fun hssd => hexcl ⟨hssd, hplace⟩⟩
  seen := by
    intro p ino hfile full mode
    obtain ⟨fd, c', hopen⟩ := h.exists_open hfile full mode
    obtain ⟨i, hi, rfl, htier⟩ := h.open hopen
    obtain rfl : ino = i := Option.some.inj (hfile.symm.trans hi)
    have hfd : (c'.node n).fds s.nextFd = some ⟨p, ino, mode⟩ := by
      rw [htier.fds]
      exact Function.update_self ..
    have hdata : (c'.disk n).data = s.data := htier.data
    refine ⟨_, c', _, hopen, hfd, by rw [hdata], fun off size hmode => ?_⟩
    simp [fusionRead, hfd, hmode, hdata]

end Tiering

omit [DecidableEq Node] in
theorem Initial.tiering {c : Cluster Node} (h : Initial c) (n : Node) :
    Tiering net n c (oneTierStart n c) where
  sound := h.sound
  nodup := by rw [h.queue n]; exact List.nodup_nil
  live := fun path ino hfile => by cases hfile
  absent := fun path _ => by simp [Cluster.slot, Disk.slot, h.entry, h.queue n]
  owned := fun path ino hfile => by cases hfile
  idle := fun m _ path => by simp [Cluster.slot, Disk.slot, h.entry]
  data := rfl
  nextIno := rfl
  fds := rfl
  nextFd := rfl

/-- **Tiering is transparent.** Whatever `ssd_is_full` answers, after every run of one node each file
is on exactly one tier, and opening it shows the contents that the run gives it on a single tier. -/
theorem tiering_transparent (net : Net Node) (n : Node) {c c' : Cluster Node} (hinit : Initial c)
    (ops : List (Op Node)) (hops : EachStep (step net) (OneNode net n) c ops)
    (hrun : run (step net) c ops = some c') :
    ∃ s, run OneTier.step (oneTierStart n c) ops = some s ∧ Transparent net n c' s := by
  obtain ⟨s, hs, htier⟩ : ∃ s, run OneTier.step (oneTierStart n c) ops = some s ∧
      Tiering net n c' s :=
    run_simulates (fun _ _ _ _ htier hstep hop => htier.step hop hstep) (hinit.tiering n) hops hrun
  exact ⟨s, hs, htier.transparent⟩

/-- A file is written, pushed to the HDD by another one, and opened again while the SSD is full. -/
def thereAndBack : List (Op Bool) :=
  [.create false [] (filePath "/f" path_f), .write false 0 0 (cstr "x"), .release false [] [] 0,
    .create false [true] (filePath "/g" path_g), .getattr false [] (cstr "/f"),
    .open false [true] (filePath "/f" path_f) .rdwr, .unlink false [] (filePath "/g" path_g)]

theorem tiering_transparent_thereAndBack :
    ∃ c', run (step twoNodes) freshCluster thereAndBack = some c' ∧
      ∃ s, run OneTier.step (oneTierStart false freshCluster) thereAndBack = some s ∧
        Transparent twoNodes false c' s := by
  have hops : Guarded (step twoNodes) (OneNode twoNodes false) freshCluster thereAndBack := by
    decide +kernel
  have hsome : (run (step twoNodes) freshCluster thereAndBack).isSome = true := by decide +kernel
  obtain ⟨c', hrun⟩ := Option.isSome_iff_exists.mp hsome
  exact ⟨c', hrun, tiering_transparent twoNodes false freshCluster_initial thereAndBack hops.eachStep
    hrun⟩

end FusionFS
