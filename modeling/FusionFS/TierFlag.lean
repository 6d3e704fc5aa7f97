import FusionFS.Ownership

/-!
# The tier flag

The slash behind an owner's address says that the file is on the owner's HDD. The eviction loop
writes it under the path on the SSD, not under the path of the file.
-/

namespace FusionFS

open SecondChance Transition

variable {Node : Type} [DecidableEq Node] {net : Net Node}

/-- The file is on the SSD. -/
def Slot.Regular (s : Slot) : Prop := ∃ i, s.ssd = some (.file i)

/-- The file was moved to the HDD and not back. -/
def Slot.Tiered (s : Slot) : Prop := (∃ t, s.ssd = some (.link t)) ∧ ∃ i, s.hdd = some (.file i)

/-- The flag of an owned file tells where the owner has it. -/
def TierFlag (net : Net Node) (c : Cluster Node) : Prop :=
  ∀ (p : FilePath) n, Registered net c p n →
    (c.zht p.bytes = some (net.ip n ++ [slash]) ↔ (c.slot net n p.bytes).Tiered) ∧
    (c.zht p.bytes = some (net.ip n) ↔ (c.slot net n p.bytes).Regular)

/-- The eviction loop writes under keys of files that are there. -/
def AddsNoKey (net : Net Node) (c : Cluster Node) (op : Op Node) : Prop :=
  ∀ key ∈ evictedNames net c op, (c.zht key).isSome

/-- Operations as FUSE issues them: a file is created where there is none. -/
def fuseStep (net : Net Node) (c : Cluster Node) (op : Op Node) : Option (Cluster Node) :=
  match op with
  | .create _ _ path => if (c.zht path.bytes).isSome then none else step net c op
  | _ => step net c op

/-- Nothing is evicted, and a file is published by a node that has it on its SSD. -/
def StaysOnSsd (net : Net Node) (c : Cluster Node) (op : Op Node) : Prop :=
  evictedNames net c op = [] ∧
  ∀ n full junk fd h, op = .release n full junk fd → (c.node n).fds fd = some h →
    net.ip n ≠ (realIp junk (zhtValue c.zht h.path.bytes)).2 → h.mode ≠ .rdonly →
      (c.slot net n h.path.bytes).Regular

theorem step_of_fuseStep {c c' : Cluster Node} {op : Op Node} (h : fuseStep net c op = some c') :
    step net c op = some c' := by
  cases op with
  | create n full path =>
      simp only [fuseStep] at h
      split at h
      · cases h
      · exact h
  | _ => exact h

/-! ### Keys -/

theorem zht_step {c c' : Cluster Node} (hs : Sound net c) {op : Op Node}
    (hstep : step net c op = some c') (p : FilePath) :
    c'.zht p.bytes = c.zht p.bytes ∨ c'.zht p.bytes = none ∨
      c'.zht p.bytes = some (net.ip op.node) ∨
      (p.bytes ∈ evictedNames net c op ∧
        c'.zht p.bytes = some (net.ip op.node ++ [slash])) := by
  cases op with
  | create n full path =>
      obtain ⟨⟨fd, c''⟩, hc, heq⟩ := Option.map_eq_some_iff.mp hstep
      obtain rfl : c'' = c' := heq
      obtain ⟨c₁, ino, hev, -, -, -, -, -, -, hzht⟩ := hs.create hc
      have hold : c''.zht p.bytes = c₁.zht p.bytes ∨ c''.zht p.bytes = some (net.ip n) := by
        rw [hzht]
        by_cases hp : p.bytes = path.bytes
        · rw [hp]
          exact (createEntry_self c₁.zht path.bytes (net.ip n)).symm
        · exact Or.inl (createEntry_of_ne (p.ne_dirname path) hp)
      rcases hold with hold | hold
      · rw [hold, hev.zht]
        split
        · rename_i hin
          exact Or.inr (Or.inr (Or.inr ⟨hin, rfl⟩))
        · exact Or.inl rfl
      · exact Or.inr (Or.inr (Or.inl hold))
  | getattr n junk x =>
      cases hstep
      left
      rcases hs.getattr n junk x with heq | ⟨-, -, heq⟩ | ⟨_, _, _, _, d, -, -, -, -, heq, -⟩
      all_goals
        rw [heq]
        try rfl
  | «open» n full path mode =>
      obtain ⟨⟨fd, c''⟩, hc, heq⟩ := Option.map_eq_some_iff.mp hstep
      obtain rfl : c'' = c' := heq
      obtain ⟨c₁, q, ino, hprom, -, -, hzht, -⟩ := hs.open hc
      rw [hzht]
      rcases hprom with ⟨-, rfl, -⟩ | ⟨hsym, -, c₀, d, hev, rfl, -⟩
      · exact Or.inl rfl
      · rw [Cluster.zht_setDisk, hev.zht]
        split
        · rename_i hin
          refine Or.inr (Or.inr (Or.inr ⟨?_, rfl⟩))
          simpa [evictedNames, hsym] using hin
        · exact Or.inl rfl
  | read n fd off size =>
      obtain ⟨_, -, rfl⟩ := Option.map_eq_some_iff.mp hstep
      exact Or.inl rfl
  | write n fd off buf =>
      obtain ⟨h, -, -, rfl⟩ := write_cases hstep
      exact Or.inl rfl
  | truncate n path size =>
      obtain ⟨i, -, rfl⟩ := truncate_cases hstep
      exact Or.inl rfl
  | release n full junk fd =>
      obtain ⟨h, nodeaddr, hfd, rfl, hcase⟩ := release_cases hstep
      rcases hcase with ⟨-, rfl⟩ | ⟨hremote, hmode, rfl⟩ | ⟨-, -, rfl⟩
      · exact Or.inl rfl
      · obtain ⟨c₁, hc₁, -, -, hev, -⟩ := (hs.setHandle n fd none).publish n full h.path.bytes
          (realIp junk (zhtValue c.zht h.path.bytes))
        rw [Cluster.queue_setHandle] at hev
        rw [hev.zht]
        split
        · rename_i hin
          refine Or.inr (Or.inr (Or.inr ⟨?_, rfl⟩))
          simpa [evictedNames, hfd, hremote, hmode] using hin
        · rw [hc₁, zht_ffsRmfile]
          by_cases hp : p.bytes = h.path.bytes
          · refine Or.inr (Or.inr (Or.inl ?_))
            rw [hp]
            exact zhtInsert_self
          · exact Or.inl (zhtInsert_of_ne hp)
      · exact Or.inl rfl
  | unlink n junk path =>
      obtain ⟨⟨ret, c''⟩, hc, rfl⟩ := Option.map_eq_some_iff.mp hstep
      by_cases hp : p = path
      · subst hp
        exact Or.inr (Or.inl (unlink_zht hc))
      · exact Or.inl (unlink_zht_of_ne hc hp)

/-! ### What stays on the SSD -/

/-- Nothing has been moved to an HDD, and no flag is set. -/
structure SsdOnly (net : Net Node) (c : Cluster Node) : Prop where
  hdd : ∀ n path, (c.slot net n path).hdd = none
  link : ∀ n path t, (c.slot net n path).ssd ≠ some (.link t)
  unflagged : ∀ (p : FilePath) n, c.zht p.bytes ≠ some (net.ip n ++ [slash])

omit [DecidableEq Node] in
theorem SsdOnly.holds_iff {c : Cluster Node} (h : SsdOnly net c) (n : Node) (path : Bytes) :
    (c.slot net n path).Holds ↔ (c.slot net n path).Regular := by
  simp [Slot.Holds, Slot.Regular, h.hdd]

omit [DecidableEq Node] in
theorem Initial.ssdOnly {c : Cluster Node} (h : Initial c) : SsdOnly net c where
  hdd := fun n path => by simp [Cluster.slot, Disk.slot, h.entry]
  link := fun n path t => by simp [Cluster.slot, Disk.slot, h.entry]
  unflagged := by
    intro p n hz
    exact p.leaf (h.zht _ (by rw [hz]; rfl))

omit [DecidableEq Node] in
/-- On SSDs alone, the flags are right as long as the copies are there. -/
theorem SsdOnly.tierFlag {c : Cluster Node} (h : SsdOnly net c)
    (hd : Durable net Set.univ c) : TierFlag net c := by
  intro p n hreg
  have hregular := (h.holds_iff n p.bytes).mp (hd p trivial n hreg)
  refine ⟨iff_of_false (h.unflagged p n) ?_, iff_of_true (hreg.resolve_right (h.unflagged p n))
    hregular⟩
  rintro ⟨-, i, hi⟩
  rw [h.hdd] at hi
  cases hi

/-- The places of one file, when nothing of it is on the HDD. -/
def Slot.Plain (s : Slot) : Prop := s.hdd = none ∧ ∀ t, s.ssd ≠ some (.link t)

theorem Slot.plain_of_grown {s s' : Slot} {i : Nat} (h : s' = s ∨ s.Grown i s') (hs : s.Plain) :
    s'.Plain := by
  rcases h with rfl | ⟨-, rfl⟩ | ⟨⟨t, ht⟩, -⟩
  · exact hs
  · exact ⟨hs.1, fun t => by simp⟩
  · exact absurd ht (hs.2 t)

theorem plain_setDisk {c : Cluster Node} {n : Node} {d : Disk}
    (h : ∀ m path, (c.slot net m path).Plain) (hd : ∀ path, (d.slot net.root path).Plain) (m : Node)
    (path : Bytes) : ((c.setDisk n d).slot net m path).Plain := by
  by_cases hmn : m = n
  · subst hmn
    rw [Cluster.slot_setDisk_self]
    exact hd path
  · rw [Cluster.slot_setDisk_of_ne _ hmn]
    exact h m path

theorem plain_unlink_ssd {c : Cluster Node} {n : Node} {x : Bytes}
    (h : ∀ m path, (c.slot net m path).Plain) (m : Node) (path : Bytes) :
    ((c.setDisk n ((c.disk n).unlink (net.root.fullpath x))).slot net m path).Plain := by
  refine plain_setDisk h (fun y => ?_) m path
  have hm := Disk.moved_setEntry_ssd (r := net.root) (c.disk n) x none
  by_cases hy : y = x
  · subst hy
    rw [Disk.unlink, hm.at]
    exact ⟨(h n y).1, fun t => by simp⟩
  · rw [Disk.unlink, hm.elsewhere hy]
    exact h n y

theorem plain_ffsRmfile {c : Cluster Node} (h : ∀ m path, (c.slot net m path).Plain)
    (addr x : Bytes) (flag : Bool) (m : Node) (path : Bytes) :
    ((ffsRmfile net addr (remotePath (net.root.fullpath x) flag) c).slot net m path).Plain := by
  rcases ffsRmfile_cases net addr x flag c with ⟨-, heq⟩ | ⟨k, d, -, heq, hm⟩
  · rw [heq]
    exact h m path
  · rw [heq]
    refine plain_setDisk h (fun y => ?_) m path
    by_cases hy : y = x
    · subst hy
      rw [hm.at]
      cases flag with
      | true => exact ⟨rfl, (h k y).2⟩
      | false => exact ⟨(h k y).1, fun t => by simp⟩
    · rw [hm.elsewhere hy]
      exact h k y

omit [DecidableEq Node] in
theorem Evicted.slot_of_notMem {n : Node} {fs : List Bytes} {c c' : Cluster Node} {path : Bytes}
    (h : Evicted net n fs c c') (hpath : net.root.fullpath path ∉ fs) (m : Node) :
    c'.slot net m path = c.slot net m path := by
  by_cases hmn : m = n
  · exact hmn ▸ h.kept path hpath
  · rw [Cluster.slot, Cluster.disk, h.other m hmn]
    rfl

theorem plain_step {c c' : Cluster Node} (hs : Sound net c) {op : Op Node}
    (hstep : step net c op = some c') {path : Bytes}
    (hnames : net.root.fullpath path ∉ evictedNames net c op)
    (h : ∀ m path, (c.slot net m path).Plain) (m : Node) : (c'.slot net m path).Plain := by
  cases op with
  | create n full x =>
      obtain ⟨⟨fd, c''⟩, hc, heq⟩ := Option.map_eq_some_iff.mp hstep
      obtain rfl : c'' = c' := heq
      obtain ⟨c₁, ino, hev, hw, hother, -⟩ := hs.create hc
      by_cases hmn : m = n
      · subst hmn
        by_cases hx : path = x.bytes
        · subst hx
          refine Slot.plain_of_grown hw.grown ?_
          rw [← Cluster.slot, hev.slot_of_notMem hnames]
          exact h m x.bytes
        · rw [Cluster.slot, hw.elsewhere hx, ← Cluster.slot, hev.slot_of_notMem hnames]
          exact h m path
      · rw [Cluster.slot, Cluster.disk, hother m hmn]
        exact h m path
  | getattr n junk x =>
      cases hstep
      rcases hs.getattr n junk x with heq | ⟨-, -, heq⟩ | ⟨_, _, _, i, d, -, -, -, -, heq, hw⟩
      · rw [heq]
        exact h m path
      · rw [heq]
        exact plain_setDisk h (fun y => by rw [Disk.slot_mkdir]; exact h n y) m path
      · rw [heq]
        refine plain_setDisk h (fun y => ?_) m path
        by_cases hy : y = x
        · subst hy
          exact Slot.plain_of_grown hw.grown (h n y)
        · rw [hw.elsewhere hy]
          exact h n y
  | «open» n full x mode =>
      obtain ⟨⟨fd, c''⟩, hc, heq⟩ := Option.map_eq_some_iff.mp hstep
      obtain rfl : c'' = c' := heq
      obtain ⟨c₁, q, ino, hprom, -, hdisk, -⟩ := hs.open hc
      rcases hprom with ⟨-, rfl, -⟩ | ⟨hsym, -⟩
      · rw [Cluster.slot, hdisk m]
        exact h m path
      · obtain ⟨t, ht⟩ := link_of_isSymlinkSsd hsym
        exact absurd ht ((h n x.bytes).2 t)
  | read n fd off size =>
      obtain ⟨_, -, rfl⟩ := Option.map_eq_some_iff.mp hstep
      exact h m path
  | write n fd off buf =>
      obtain ⟨hd, -, -, rfl⟩ := write_cases hstep
      exact plain_setDisk h (fun y => by rw [Disk.slot_setData]; exact h n y) m path
  | truncate n x size =>
      obtain ⟨i, -, rfl⟩ := truncate_cases hstep
      exact plain_setDisk h (fun y => by rw [Disk.slot_setData]; exact h n y) m path
  | release n full junk fd =>
      obtain ⟨hd, nodeaddr, hfd, rfl, hcase⟩ := release_cases hstep
      have h₀ : ∀ m path, ((c.setHandle n fd none).slot net m path).Plain := fun m path => by
        simpa [Cluster.slot] using h m path
      rcases hcase with ⟨-, rfl⟩ | ⟨hremote, hmode, rfl⟩ | ⟨-, -, rfl⟩
      · exact h₀ m path
      · obtain ⟨c₁, hc₁, -, -, hev, -⟩ := (hs.setHandle n fd none).publish n full hd.path.bytes
          (realIp junk (zhtValue c.zht hd.path.bytes))
        have hkept : net.root.fullpath path ∉ (victims full (c.node n).queue).1 := by
          simpa [evictedNames, hfd, hremote, hmode] using hnames
        have h₁ : ∀ m path, (((c.setHandle n fd none).setZht (zhtInsert (c.setHandle n fd none).zht
            hd.path.bytes (net.ip n))).slot net m path).Plain := h₀
        rw [Cluster.queue_setHandle] at hev
        rw [hev.slot_of_notMem hkept, hc₁]
        exact plain_ffsRmfile h₁ _ _ _ m path
      · have := plain_unlink_ssd (n := n) (x := hd.path.bytes) h₀ m path
        simpa [dropCopy, Cluster.slot] using this
  | unlink n junk x =>
      obtain ⟨⟨ret, c''⟩, hc, heq⟩ := Option.map_eq_some_iff.mp hstep
      obtain rfl : c'' = c' := heq
      rcases unlink_cases hc with ⟨-, -, rfl⟩ | ⟨val, z, oldaddr, c₁, c₂, -, hc₁, -, -, hc₂, -, rfl⟩
      · exact h m path
      · have hsym : isSymlinkSsd (c.disk n) (net.root.fullpath x.bytes) = false := by
          by_contra hne
          obtain ⟨t, ht⟩ := link_of_isSymlinkSsd (Bool.not_eq_false _ ▸ hne)
          exact (h n x.bytes).2 t ht
        rw [hsym, if_neg Bool.false_ne_true] at hc₁
        subst hc₁
        refine plain_unlink_ssd (fun k y => ?_) m path
        have hq : ∀ k y, (((c₁.setQueue n (rmelem (net.root.fullpath x.bytes)
            (c₁.node n).queue)).setZht (zhtRemove z x.bytes)).slot net k y).Plain := fun k y => by
          simpa [Cluster.slot] using h k y
        rw [hc₂]
        split
        · exact hq k y
        · exact plain_ffsRmfile hq _ _ _ k y

/-! ### Evicted names -/

omit [DecidableEq Node] in
theorem mem_queue_of_evicted {c : Cluster Node} {op : Op Node} {f : Bytes}
    (h : f ∈ evictedNames net c op) : f ∈ names (c.node op.node).queue := by
  cases op with
  | create n full path => exact mem_names_of_mem_victims h
  | «open» n full path mode =>
      simp only [evictedNames] at h
      split at h
      · exact mem_names_of_mem_victims h
      · cases h
  | release n full junk fd =>
      simp only [evictedNames] at h
      split at h
      · split at h
        · exact mem_names_of_mem_victims h
        · cases h
      · cases h
  | _ => cases h

/-- The loop leaves its key behind, unless the operation goes on to create that very path. -/
theorem zht_of_evicted {c c' : Cluster Node} (hs : Sound net c) {op : Op Node}
    (hstep : fuseStep net c op = some c') {p : FilePath} (hp : p.bytes ∈ evictedNames net c op)
    (hold : (c.zht p.bytes).isSome) :
    c'.zht p.bytes = some (net.ip op.node ++ [slash]) := by
  have hstep' := step_of_fuseStep hstep
  cases op with
  | create n full path =>
      obtain ⟨⟨fd, c''⟩, hc, heq⟩ := Option.map_eq_some_iff.mp hstep'
      obtain rfl : c'' = c' := heq
      obtain ⟨c₁, ino, hev, -, -, -, -, -, -, hzht⟩ := hs.create hc
      have hne : p.bytes ≠ path.bytes := by
        intro heq
        rw [fuseStep, ← heq, if_pos hold] at hstep
        cases hstep
      have hin : p.bytes ∈ (victims full (c.node n).queue).1 := hp
      rw [hzht, createEntry_of_ne (p.ne_dirname path) hne, hev.zht, if_pos hin]
      rfl
  | «open» n full path mode =>
      obtain ⟨⟨fd, c''⟩, hc, heq⟩ := Option.map_eq_some_iff.mp hstep'
      obtain rfl : c'' = c' := heq
      obtain ⟨c₁, q, ino, hprom, -, -, hzht, -⟩ := hs.open hc
      rcases hprom with ⟨hsym, -⟩ | ⟨hsym, -, c₀, d, hev, rfl, -⟩
      · simp [evictedNames, hsym] at hp
      · have hin : p.bytes ∈ (victims full (c.node n).queue).1 := by
          simpa [evictedNames, hsym] using hp
        rw [hzht, Cluster.zht_setDisk, hev.zht, if_pos hin]
        rfl
  | release n full junk fd =>
      obtain ⟨h, nodeaddr, hfd, rfl, hcase⟩ := release_cases hstep'
      rcases hcase with ⟨hlocal, -⟩ | ⟨hremote, hmode, rfl⟩ | ⟨-, hmode, -⟩
      · simp [evictedNames, hfd, ← hlocal] at hp
      · obtain ⟨c₁, hc₁, -, -, hev, -⟩ := (hs.setHandle n fd none).publish n full h.path.bytes
          (realIp junk (zhtValue c.zht h.path.bytes))
        have hin : p.bytes ∈ (victims full (c.node n).queue).1 := by
          simpa [evictedNames, hfd, hremote, hmode] using hp
        rw [Cluster.queue_setHandle] at hev
        rw [hev.zht, if_pos hin]
        rfl
      · simp [evictedNames, hfd, hmode] at hp
  | _ => cases hp

theorem exists_longest {l : List Bytes} (h : l ≠ []) : ∃ f ∈ l, ∀ g ∈ l, g.length ≤ f.length := by
  induction l with
  | nil => exact absurd rfl h
  | cons a l ih =>
      by_cases hl : l = []
      · subst hl
        exact ⟨a, by simp, by simp⟩
      · obtain ⟨f, hf, hmax⟩ := ih hl
        by_cases hlen : f.length ≤ a.length
        · refine ⟨a, by simp, fun g hg => ?_⟩
          rcases List.mem_cons.mp hg with rfl | hg
          · exact le_refl _
          · exact (hmax g hg).trans hlen
        · refine ⟨f, List.mem_cons_of_mem _ hf, fun g hg => ?_⟩
          rcases List.mem_cons.mp hg with rfl | hg
          · omega
          · exact hmax g hg

omit [DecidableEq Node] in
theorem TierFlag.durable {c : Cluster Node} (h : TierFlag net c) : Durable net Set.univ c := by
  intro p _ n hreg
  obtain ⟨hflag, hplain⟩ := h p n hreg
  rcases hreg with hz | hz
  · exact Or.inl (hplain.mp hz)
  · exact Or.inr (hflag.mp hz).2

/-- An eviction shows: the longest name it writes is flagged as a file it has not moved. -/
theorem no_eviction {c c' : Cluster Node} (hs : Sound net c) (hssd : SsdOnly net c) {op : Op Node}
    (hstep : fuseStep net c op = some c') (hflag : TierFlag net c') (hkeys : AddsNoKey net c op) :
    evictedNames net c op = [] := by
  by_contra hne
  obtain ⟨f, hf, hmax⟩ := exists_longest hne
  obtain ⟨q, rfl⟩ := hs.queue op.node f (mem_queue_of_evicted hf)
  have hz := zht_of_evicted (p := net.root.filePath q) hs hstep hf (hkeys _ hf)
  obtain ⟨⟨t, ht⟩, -⟩ := ((hflag (net.root.filePath q) op.node (Or.inr hz)).1).mp hz
  have hout : net.root.fullpath (net.root.fullpath q.bytes) ∉ evictedNames net c op := by
    intro hin
    have hlen := hmax _ hin
    have hlt := net.root.length_lt_fullpath (net.root.fullpath q.bytes)
    omega
  have hplain := plain_step hs (step_of_fuseStep hstep) hout
    (fun m path => ⟨hssd.hdd m path, hssd.link m path⟩) op.node
  exact hplain.2 t ht

omit [DecidableEq Node] in
theorem keepsCopyAt_of_staysOnSsd {c : Cluster Node} (hssd : SsdOnly net c) {op : Op Node}
    (h : StaysOnSsd net c op) (p : FilePath) : KeepsCopyAt net c op p := by
  refine ⟨fun hin => ?_, ?_⟩
  · rw [h.1] at hin
    cases hin
  · rintro n full junk fd hd rfl hfd rfl hremote
    refine ⟨fun hmode => ?_, fun _ hreg => ?_⟩
    · exact (hssd.holds_iff n _).mpr (h.2 n full junk fd hd rfl hfd hremote hmode)
    · have hz := hreg.resolve_right (hssd.unflagged hd.path n)
      rw [zhtValue_of_eq hz, realIp_of_notMem (net.slash_notMem_ip n)] at hremote
      exact absurd rfl hremote

/-- **When the tier flag is right.** It tells where every owned file is, and eviction adds no key,
along exactly those runs in which nothing is evicted and every file is published from an SSD. -/
theorem tierFlag_iff (net : Net Node) (c : Cluster Node) (hinit : Initial c) (ops : List (Op Node)) :
    (Always (fuseStep net) (TierFlag net) c ops ∧ EachStep (fuseStep net) (AddsNoKey net) c ops) ↔
      EachStep (fuseStep net) (StaysOnSsd net) c ops := by
  refine always_and_eachStep_iff
    (I := fun c => Sound net c ∧ SsdOnly net c ∧ Durable net Set.univ c)
    (fun _ h => h.2.1.tierFlag h.2.2) ?_ ?_
    ⟨hinit.sound, hinit.ssdOnly, fun p _ => hinit.durableAt p⟩ ops
  · intro c op c' ⟨hs, hssd, hd⟩ hfuse hguard
    have hstep := step_of_fuseStep hfuse
    have hplain : ∀ m path, (c'.slot net m path).Plain := fun m path =>
      plain_step hs hstep (by rw [hguard.1]; simp)
        (fun m path => ⟨hssd.hdd m path, hssd.link m path⟩) m
    refine ⟨⟨hs.step hstep, ⟨fun m path => (hplain m path).1, fun m path => (hplain m path).2, ?_⟩,
      fun p hp => ?_⟩, fun key hkey => ?_⟩
    · intro p m hz
      rcases zht_step hs hstep p with hz' | hz' | hz' | ⟨hin, -⟩
      · exact hssd.unflagged p m (hz' ▸ hz)
      · rw [hz'] at hz
        cases hz
      · rw [hz', Option.some.injEq] at hz
        exact ip_append_slash_ne net _ _ hz
      · rw [hguard.1] at hin
        cases hin
    · exact (durableAt_step hs hstep (hd p hp)).mpr (keepsCopyAt_of_staysOnSsd hssd hguard p)
    · rw [hguard.1] at hkey
      cases hkey
  · intro c op c' ⟨hs, hssd, hd⟩ hfuse hflag hkeys
    refine ⟨no_eviction hs hssd hfuse hflag hkeys, ?_⟩
    rintro n full junk fd h rfl hfd hremote hmode
    have hkeep := (durableAt_step hs (step_of_fuseStep hfuse) (hd h.path trivial)).mp
      (hflag.durable h.path trivial)
    exact (hssd.holds_iff n _).mp ((hkeep.2 n full junk fd h rfl hfd rfl hremote).1 hmode)

/-- A second file is created while the SSD is full: the first goes to the HDD. -/
def evictFirst : List (Op Bool) :=
  [.create false [] (filePath "/f" path_f), .release false [] [] 0,
    .create false [true] (filePath "/g" path_g)]

theorem tierFlag_iff_evictFirst :
    (Always (fuseStep twoNodes) (TierFlag twoNodes) freshCluster evictFirst ∧
        EachStep (fuseStep twoNodes) (AddsNoKey twoNodes) freshCluster evictFirst) ↔
      EachStep (fuseStep twoNodes) (StaysOnSsd twoNodes) freshCluster evictFirst :=
  tierFlag_iff twoNodes freshCluster freshCluster_initial evictFirst

instance (s : Slot) : Decidable s.Tiered :=
  decidable_of_iff ((match s.ssd with | some (.link _) => true | _ => false) = true ∧
      (match s.hdd with | some (.file _) => true | _ => false) = true) <| by
    refine and_congr ?_ ?_
    · cases s.ssd with
      | none => simp
      | some e => cases e <;> simp
    · cases s.hdd with
      | none => simp
      | some e => cases e <;> simp

/-- The file is on the HDD without a flag, and there is a key for a path nobody created. -/
theorem evictFirst_flags_wrong_key :
    ∃ c, run (fuseStep twoNodes) freshCluster evictFirst = some c ∧
      c.zht (cstr "/f") = some (twoNodes.ip false) ∧ (c.slot twoNodes false (cstr "/f")).Tiered ∧
      c.zht (cstr "/mnt/ssd/f") = some (twoNodes.ip false ++ [slash]) := by
  have h : (run (fuseStep twoNodes) freshCluster evictFirst).any (fun c =>
      decide (c.zht (cstr "/f") = some (twoNodes.ip false) ∧
        (c.slot twoNodes false (cstr "/f")).Tiered ∧
        c.zht (cstr "/mnt/ssd/f") = some (twoNodes.ip false ++ [slash]))) = true := by
    decide +kernel
  obtain ⟨c, hrun, hc⟩ := exists_run_of_any h
  exact ⟨c, hrun, of_decide_eq_true hc⟩

end FusionFS
