import FusionFS.Effects
import FusionFS.Lib.Run

/-!
# Ownership and the copies behind it

A registered node should hold the file. Whether it does is decided by the release of handles: it
drops, publishes or removes copies after a look at one handle and one lookup.
-/

namespace FusionFS

open SecondChance Transition

variable {Node : Type} [DecidableEq Node] {net : Net Node}

/-- The store maps the path to the node, with or without the HDD flag. -/
def Registered (net : Net Node) (c : Cluster Node) (p : FilePath) (n : Node) : Prop :=
  c.zht p.bytes = some (net.ip n) ∨ c.zht p.bytes = some (net.ip n ++ [slash])

instance (c : Cluster Node) (p : FilePath) (n : Node) : Decidable (Registered net c p n) :=
  inferInstanceAs (Decidable (_ ∨ _))

/-- A node a path is registered with has the file on its SSD or its HDD. -/
def DurableAt (net : Net Node) (c : Cluster Node) (p : FilePath) : Prop :=
  ∀ n, Registered net c p n → (c.slot net n p.bytes).Holds

/-- The property for the paths of interest: the keys the eviction loop makes up look like paths,
too. -/
def Durable (net : Net Node) (F : Set FilePath) (c : Cluster Node) : Prop :=
  ∀ p ∈ F, DurableAt net c p

/-! ### What a step depends on -/

/-- The node that issues the operation. -/
def Op.node : Op Node → Node
  | .create n _ _ => n
  | .getattr n _ _ => n
  | .open n _ _ _ => n
  | .read n _ _ _ => n
  | .write n _ _ _ => n
  | .truncate n _ _ => n
  | .release n _ _ _ => n
  | .unlink n _ _ => n

/-- The names that the eviction loop of the operation takes out of the queue. -/
def evictedNames (net : Net Node) (c : Cluster Node) : Op Node → List Bytes
  | .create n full _ => (victims full (c.node n).queue).1
  | .open n full path _ =>
      if isSymlinkSsd (c.disk n) (net.root.fullpath path.bytes)
      then (victims full (c.node n).queue).1 else []
  | .release n full junk fd =>
      match (c.node n).fds fd with
      | some h =>
          if net.ip n ≠ (realIp junk (zhtValue c.zht h.path.bytes)).2 ∧ h.mode ≠ .rdonly
          then (victims full (c.node n).queue).1 else []
      | none => []
  | _ => []

/-- The copy of `p` a step relies on is there: a node that registers the file has it, through a
release after writing or through the key of an evicted name, and a registered node that drops its SSD
copy has the file on the HDD. -/
def KeepsCopyAt (net : Net Node) (c : Cluster Node) (op : Op Node) (p : FilePath) : Prop :=
  (p.bytes ∈ evictedNames net c op →
    (∃ full, op = .create op.node full p) ∨ (c.slot net op.node p.bytes).Holds) ∧
  ∀ n full junk fd h, op = .release n full junk fd → (c.node n).fds fd = some h → h.path = p →
    net.ip n ≠ (realIp junk (zhtValue c.zht p.bytes)).2 →
      (h.mode ≠ .rdonly → (c.slot net n p.bytes).Holds) ∧
      (h.mode = .rdonly → Registered net c p n →
        ∃ i, (c.slot net n p.bytes).hdd = some (.file i))

def KeepsCopy (net : Net Node) (F : Set FilePath) (c : Cluster Node) (op : Op Node) : Prop :=
  ∀ p ∈ F, KeepsCopyAt net c op p

instance (c : Cluster Node) (op : Op Node) (path : Bytes) :
    Decidable (path ∈ evictedNames net c op) :=
  decidable_of_iff ((evictedNames net c op).any (· == path)) (by simp)

instance decidableKeepsCopyAt (c : Cluster Node) (p : FilePath) :
    ∀ op, Decidable (KeepsCopyAt net c op p)
  | .create n full path =>
      decidable_of_iff (p.bytes ∈ evictedNames net c (.create n full path) →
        path = p ∨ (c.slot net n p.bytes).Holds) (by simp [KeepsCopyAt, Op.node])
  | .release n full junk fd =>
      decidable_of_iff ((p.bytes ∈ evictedNames net c (.release n full junk fd) →
          (c.slot net n p.bytes).Holds) ∧
        ∀ h ∈ (c.node n).fds fd, h.path = p → net.ip n ≠ (realIp junk (zhtValue c.zht p.bytes)).2 →
          (h.mode ≠ .rdonly → (c.slot net n p.bytes).Holds) ∧
          (h.mode = .rdonly → Registered net c p n →
            ∃ i, (c.slot net n p.bytes).hdd = some (.file i))) <| by
        refine and_congr (by simp [Op.node]) ⟨?_, fun h hd hfd => h n full junk fd hd rfl hfd⟩
        rintro h _ _ _ _ hd ⟨⟩ hfd
        exact h hd hfd
  | .getattr n junk path => .isTrue (by simp [KeepsCopyAt, evictedNames])
  | .open n full path mode =>
      decidable_of_iff (p.bytes ∈ evictedNames net c (.open n full path mode) →
        (c.slot net n p.bytes).Holds) (by simp [KeepsCopyAt, Op.node])
  | .read n fd off size => .isTrue (by simp [KeepsCopyAt, evictedNames])
  | .write n fd off buf => .isTrue (by simp [KeepsCopyAt, evictedNames])
  | .truncate n path size => .isTrue (by simp [KeepsCopyAt, evictedNames])
  | .unlink n junk path => .isTrue (by simp [KeepsCopyAt, evictedNames])

/-! ### Registrations -/

omit [DecidableEq Node] in
theorem ip_append_slash_ne (net : Net Node) (m n : Node) : net.ip m ≠ net.ip n ++ [slash] := by
  intro heq
  exact net.slash_notMem_ip m (by rw [heq]; simp)

omit [DecidableEq Node] in
theorem registered_of_eq {c : Cluster Node} {p : FilePath} {m n : Node}
    (hz : c.zht p.bytes = some (net.ip n)) (h : Registered net c p m) : m = n := by
  rw [Registered, hz] at h
  rcases h with h | h
  · exact ip_inj (Option.some.inj h).symm
  · exact absurd (Option.some.inj h) (ip_append_slash_ne net n m)

omit [DecidableEq Node] in
theorem registered_of_flagged {c : Cluster Node} {p : FilePath} {m n : Node}
    (hz : c.zht p.bytes = some (net.ip n ++ [slash])) (h : Registered net c p m) : m = n := by
  rw [Registered, hz] at h
  rcases h with h | h
  · exact absurd (Option.some.inj h).symm (ip_append_slash_ne net m n)
  · exact ip_inj (List.append_cancel_right (Option.some.inj h)).symm

omit [DecidableEq Node] in
theorem Registered.congr {c c' : Cluster Node} {p : FilePath} (hz : c'.zht p.bytes = c.zht p.bytes)
    (n : Node) : Registered net c' p n ↔ Registered net c p n := by
  rw [Registered, Registered, hz]

theorem Slot.holds_of_ino {s : Slot} {i : Nat} (h : s.ino = some i) : s.Holds := by
  obtain ⟨ssd, hdd⟩ := s
  cases ssd with
  | none => simp [Slot.ino] at h
  | some e =>
      cases e with
      | file j => exact Or.inl ⟨j, rfl⟩
      | link t =>
          cases hdd with
          | none => simp [Slot.ino] at h
          | some e =>
              cases e with
              | file j => exact Or.inr ⟨j, rfl⟩
              | link u => simp [Slot.ino] at h

theorem createEntry_of_ne {z : Zht} {path addr key : Bytes} (hdir : key ≠ dirOf path)
    (hkey : key ≠ path) : createEntry z path addr key = z key := by
  unfold createEntry
  cases hz : z (dirOf path) with
  | none => rfl
  | some v => simp [zhtAppend, zhtUpdate_eq_insert, hkey, hdir]

theorem createEntry_self (z : Zht) (path addr : Bytes) :
    createEntry z path addr path = some addr ∨ createEntry z path addr path = z path := by
  unfold createEntry
  cases hz : z (dirOf path) with
  | none => exact Or.inr rfl
  | some v => exact Or.inl (by simp)

/-! ### Eviction -/

namespace Evicted

variable {n : Node} {fs : List Bytes} {c c' : Cluster Node} {p : FilePath}

theorem holds_iff (h : Evicted net n fs c c') (m : Node) (path : Bytes) :
    (c'.slot net m path).Holds ↔ (c.slot net m path).Holds := by
  by_cases hm : m = n
  · exact hm ▸ h.holds path
  · rw [Cluster.slot, Cluster.slot, Cluster.disk, Cluster.disk, h.other m hm]

/-- The loop keeps the registered copies if the nodes its keys name have them. -/
theorem durableAt (h : Evicted net n fs c c') (hd : DurableAt net c p)
    (hkey : p.bytes ∈ fs → (c.slot net n p.bytes).Holds) : DurableAt net c' p := by
  intro m hm
  rw [h.holds_iff]
  by_cases hp : p.bytes ∈ fs
  · have hz : c'.zht p.bytes = some (net.ip n ++ [slash]) := by rw [h.zht, if_pos hp]
    exact registered_of_flagged hz hm ▸ hkey hp
  · exact hd m ((Registered.congr (by rw [h.zht, if_neg hp]) m).mp hm)

omit [DecidableEq Node] in
/-- And it does not, if one of them has not. -/
theorem holds_of_durableAt (h : Evicted net n fs c c') (hd : DurableAt net c' p)
    (hp : p.bytes ∈ fs) : (c.slot net n p.bytes).Holds := by
  have hz : c'.zht p.bytes = some (net.ip n ++ [slash]) := by rw [h.zht, if_pos hp]
  exact (h.holds p.bytes).mp (hd n (Or.inr hz))

end Evicted

omit [DecidableEq Node] in
theorem durableAt_congr {c c' : Cluster Node} {p : FilePath} (hz : c'.zht p.bytes = c.zht p.bytes)
    (hslot : ∀ m, (c'.slot net m p.bytes).Holds ↔ (c.slot net m p.bytes).Holds) :
    DurableAt net c' p ↔ DurableAt net c p := by
  refine forall_congr' fun m => ?_
  rw [Registered.congr hz, hslot]

theorem Evicted.durableAt_iff {n : Node} {fs : List Bytes} {c c' : Cluster Node} {p : FilePath}
    (h : Evicted net n fs c c') (hd : DurableAt net c p) :
    DurableAt net c' p ↔ (p.bytes ∈ fs → (c.slot net n p.bytes).Holds) :=
  ⟨fun hd' => h.holds_of_durableAt hd', h.durableAt hd⟩

/-! ### The steps -/

section Steps

variable {c c' : Cluster Node} {n : Node} {full : List Bool} {junk : Bytes} {path p : FilePath}

theorem durableAt_setDisk {d : Disk} (hslot : (d.slot net.root p.bytes).Holds ↔
    (c.slot net n p.bytes).Holds) : DurableAt net (c.setDisk n d) p ↔ DurableAt net c p := by
  refine durableAt_congr rfl fun m => ?_
  by_cases hmn : m = n
  · subst hmn
    rw [Cluster.slot_setDisk_self, hslot]
  · rw [Cluster.slot_setDisk_of_ne _ hmn]

theorem durableAt_setData (i : Nat) (content : Bytes) :
    DurableAt net (c.setDisk n ((c.disk n).setData i content)) p ↔ DurableAt net c p :=
  durableAt_setDisk (by rw [Disk.slot_setData]; rfl)

theorem durableAt_create (hs : Sound net c) {fd : Nat}
    (hc : fusionCreate net n full path c = some (fd, c')) (hd : DurableAt net c p) :
    DurableAt net c' p ↔ KeepsCopyAt net c (.create n full path) p := by
  obtain ⟨c₁, ino, hev, hw, hother, -, -, -, -, hzht⟩ := hs.create hc
  rw [KeepsCopyAt, and_iff_left (by rintro _ _ _ _ _ ⟨⟩)]
  by_cases hp : p = path
  · -- the created file is there, whatever the store says about its owner
    subst hp
    refine iff_of_true (fun m hm => ?_) fun _ => Or.inl ⟨full, rfl⟩
    by_cases hmn : m = n
    · exact hmn ▸ Slot.holds_of_ino hw.at
    · have hz : c'.zht p.bytes = c.zht p.bytes := by
        rw [hzht]
        rcases createEntry_self c₁.zht p.bytes (net.ip n) with hz | hz
        · exact absurd (registered_of_eq (hzht ▸ hz) hm) hmn
        · rw [hz, hev.zht]
          split
          · rename_i hfs
            rw [hev.zht, if_pos hfs] at hz
            exact absurd (registered_of_flagged (hzht ▸ hz) hm) hmn
          · rfl
      have hold := hd m ((Registered.congr hz m).mp hm)
      rwa [Cluster.slot, Cluster.disk, hother m hmn]
  · have hne : p.bytes ≠ path.bytes := fun heq => hp (FilePath.ext_bytes heq)
    have hcongr : DurableAt net c' p ↔ DurableAt net c₁ p := by
      refine durableAt_congr ?_ fun m => ?_
      · rw [hzht, createEntry_of_ne (p.ne_dirname path) hne]
      · by_cases hmn : m = n
        · subst hmn
          rw [Cluster.slot, hw.elsewhere hne]
          rfl
        · rw [hev.holds_iff, Cluster.slot, Cluster.disk, hother m hmn]
          rfl
    rw [hcongr, hev.durableAt_iff hd]
    refine forall_congr' fun _ => ?_
    rw [or_iff_right]
    · rfl
    · rintro ⟨full', heq⟩
      cases heq
      exact hp rfl

theorem durableAt_getattr (hs : Sound net c) {x : Bytes} (hd : DurableAt net c p) :
    DurableAt net (fusionGetattr net n junk x c).2 p := by
  rcases hs.getattr n junk x with heq | ⟨-, -, heq⟩ | ⟨_, _, _, i, d, -, -, -, -, heq, hw⟩
  · rwa [heq]
  · rw [heq]
    refine (durableAt_setDisk ?_).mpr hd
    rw [Disk.slot_mkdir]
    rfl
  · rw [heq]
    intro m hm
    have hold := hd m hm
    by_cases hmn : m = n
    · subst hmn
      rw [Cluster.slot_setDisk_self]
      by_cases hx : p.bytes = x
      · exact Slot.holds_of_ino (hx ▸ hw.at)
      · rwa [hw.elsewhere hx]
    · rwa [Cluster.slot_setDisk_of_ne _ hmn]

theorem durableAt_open (hs : Sound net c) {fd : Nat} {mode : OpenMode}
    (hc : fusionOpen net n full path mode c = some (fd, c')) (hd : DurableAt net c p) :
    DurableAt net c' p ↔ KeepsCopyAt net c (.open n full path mode) p := by
  obtain ⟨c₁, q, ino, hprom, -, hdisk, hzht, -⟩ := hs.open hc
  rw [KeepsCopyAt, and_iff_left (by rintro _ _ _ _ _ ⟨⟩)]
  have hdisk' : DurableAt net c' p ↔ DurableAt net c₁ p :=
    durableAt_congr (by rw [hzht]) fun m => by rw [Cluster.slot, hdisk m, Cluster.slot]
  rw [hdisk']
  rcases hprom with ⟨hsym, rfl, -⟩ | ⟨hsym, -, c₀, d, hev, rfl, hmoved, -, t, ht⟩
  · refine iff_of_true hd fun hin => ?_
    simp [evictedNames, hsym] at hin
  · have hcongr : DurableAt net (c₀.setDisk n d) p ↔ DurableAt net c₀ p := by
      refine durableAt_congr rfl fun m => ?_
      by_cases hmn : m = n
      · subst hmn
        rw [Cluster.slot_setDisk_self]
        by_cases hx : p.bytes = path.bytes
        · rw [hx, hmoved.at, Slot.holds_promoted_of_link ht]
        · rw [hmoved.elsewhere hx]
          rfl
      · rw [Cluster.slot_setDisk_of_ne _ hmn]
    rw [hcongr, hev.durableAt_iff hd]
    simp only [evictedNames, hsym, if_true]
    refine forall_congr' fun _ => (or_iff_right ?_).symm
    rintro ⟨_, ⟨⟩⟩

theorem slot_ffsRmfile_of_ne (addr : Bytes) (flag : Bool) {x y : Bytes} (hxy : y ≠ x) (m : Node) :
    (ffsRmfile net addr (remotePath (net.root.fullpath x) flag) c).slot net m y
      = c.slot net m y := by
  rcases ffsRmfile_cases net addr x flag c with ⟨-, heq⟩ | ⟨k, d, -, heq, hmoved⟩
  · rw [heq]
  · rw [heq]
    by_cases hmk : m = k
    · subst hmk
      rw [Cluster.slot_setDisk_self, hmoved.elsewhere hxy]
      rfl
    · rw [Cluster.slot_setDisk_of_ne _ hmk]

theorem slot_ffsRmfile_of_ip_ne {addr : Bytes} (flag : Bool) (x y : Bytes) {m : Node}
    (hm : net.ip m ≠ addr) :
    (ffsRmfile net addr (remotePath (net.root.fullpath x) flag) c).slot net m y
      = c.slot net m y := by
  rcases ffsRmfile_cases net addr x flag c with ⟨-, heq⟩ | ⟨k, d, hk, heq, -⟩
  · rw [heq]
  · rw [heq, Cluster.slot_setDisk_of_ne]
    rintro rfl
    exact hm ((net.host_iff addr m).mp hk).symm

theorem zht_ffsRmfile (addr remote : Bytes) :
    (ffsRmfile net addr remote c).zht = c.zht := by
  unfold ffsRmfile
  cases net.host addr <;> rfl

theorem durableAt_publish (hs : Sound net c) {nodeaddr : Bool × Bytes} {q : Bytes}
    (hremote : net.ip n ≠ nodeaddr.2) (hd : DurableAt net c p) :
    DurableAt net (publish net n full q nodeaddr c) p ↔
      (p.bytes ∈ (victims full (c.node n).queue).1 → (c.slot net n p.bytes).Holds) ∧
        (p.bytes = q → (c.slot net n p.bytes).Holds) := by
  obtain ⟨c₁, hc₁, hs₁, -, hev, -⟩ := hs.publish n full q nodeaddr
  have hz₁ : c₁.zht = zhtInsert c.zht q (net.ip n) := by
    rw [hc₁, zht_ffsRmfile]
    rfl
  have hslot : c₁.slot net n p.bytes = c.slot net n p.bytes := by
    rw [hc₁, slot_ffsRmfile_of_ip_ne _ _ _ hremote]
    rfl
  by_cases hp : p.bytes = q
  · -- whatever else happens, the publishing node is the registered one
    have hiff : DurableAt net (publish net n full q nodeaddr c) p
        ↔ (c.slot net n p.bytes).Holds := by
      constructor
      · intro hd'
        rw [← hslot, ← hev.holds p.bytes]
        refine hd' n ?_
        rw [Registered, hev.zht]
        split
        · exact Or.inr rfl
        · rw [hz₁, hp, zhtInsert_self]
          exact Or.inl rfl
      · intro hh
        have hd₁ : DurableAt net c₁ p := by
          intro m hm
          have hz : c₁.zht p.bytes = some (net.ip n) := by rw [hz₁, hp, zhtInsert_self]
          rw [registered_of_eq hz hm, hslot]
          exact hh
        exact hev.durableAt hd₁ fun _ => hslot ▸ hh
    rw [hiff]
    exact ⟨fun hh => ⟨fun _ => hh, fun _ => hh⟩, fun hg => hg.2 hp⟩
  · have hd₁ : DurableAt net c₁ p := by
      refine (durableAt_congr ?_ fun m => ?_).mpr hd
      · rw [hz₁, zhtInsert_of_ne hp]
      · rw [hc₁, slot_ffsRmfile_of_ne _ _ hp]
        rfl
    rw [hev.durableAt_iff hd₁, hslot, and_iff_left fun heq => absurd heq hp]

theorem durableAt_dropCopy {q : Bytes} (hd : DurableAt net c p) :
    DurableAt net (dropCopy net n q c) p ↔ (p.bytes = q → Registered net c p n →
      ∃ i, (c.slot net n p.bytes).hdd = some (.file i)) := by
  have hmoved : Disk.Moved net.root (c.disk n) ((c.disk n).unlink (net.root.fullpath q)) q
      { c.slot net n q with ssd := none } := Disk.moved_setEntry_ssd (c.disk n) q none
  have hdrop : DurableAt net (dropCopy net n q c) p ↔
      DurableAt net (c.setDisk n ((c.disk n).unlink (net.root.fullpath q))) p :=
    durableAt_congr rfl fun m => by simp [dropCopy, Cluster.slot]
  rw [hdrop]
  by_cases hp : p.bytes = q
  · constructor
    · intro hd' _ hreg
      have hh := hd' n hreg
      rw [Cluster.slot_setDisk_self, hp, hmoved.at] at hh
      rw [hp]
      simpa [Slot.Holds] using hh
    · intro hg m hm
      by_cases hmn : m = n
      · subst hmn
        rw [Cluster.slot_setDisk_self, hp, hmoved.at]
        have hh := hg hp hm
        rw [hp] at hh
        exact Or.inr hh
      · rw [Cluster.slot_setDisk_of_ne _ hmn]
        exact hd m hm
  · refine iff_of_true ((durableAt_setDisk ?_).mpr hd) fun heq => absurd heq hp
    rw [hmoved.elsewhere hp]
    rfl

theorem durableAt_release (hs : Sound net c) {fd : Nat}
    (hc : fusionRelease net n full junk fd c = some c') (hd : DurableAt net c p) :
    DurableAt net c' p ↔ KeepsCopyAt net c (.release n full junk fd) p := by
  obtain ⟨h, nodeaddr, hfd, rfl, hcase⟩ := release_cases hc
  have hd₀ : DurableAt net (c.setHandle n fd none) p := by
    have hcongr : DurableAt net (c.setHandle n fd none) p ↔ DurableAt net c p :=
      durableAt_congr rfl fun m => by simp [Cluster.slot]
    exact hcongr.mpr hd
  have hslot : (c.setHandle n fd none).slot net n p.bytes = c.slot net n p.bytes := by
    simp [Cluster.slot]
  have hguard : KeepsCopyAt net c (.release n full junk fd) p ↔
      (p.bytes ∈ evictedNames net c (.release n full junk fd) → (c.slot net n p.bytes).Holds) ∧
        (h.path = p → net.ip n ≠ (realIp junk (zhtValue c.zht p.bytes)).2 →
          (h.mode ≠ .rdonly → (c.slot net n p.bytes).Holds) ∧
          (h.mode = .rdonly → Registered net c p n →
            ∃ i, (c.slot net n p.bytes).hdd = some (.file i))) := by
    refine and_congr (forall_congr' fun _ => or_iff_right ?_) ⟨fun hg => ?_, fun hg => ?_⟩
    · rintro ⟨_, ⟨⟩⟩
    · exact hg n full junk fd h rfl hfd
    · rintro _ _ _ _ h' ⟨⟩ hfd'
      rw [hfd, Option.some.injEq] at hfd'
      exact hfd' ▸ hg
  have hpath : p.bytes = h.path.bytes ↔ h.path = p :=
    ⟨fun heq => (FilePath.ext_bytes heq).symm, fun heq => by rw [heq]⟩
  rw [hguard]
  rcases hcase with ⟨hlocal, rfl⟩ | ⟨hremote, hmode, rfl⟩ | ⟨hremote, hmode, rfl⟩
  · refine iff_of_true hd₀ ⟨fun hin => ?_, ?_⟩
    · simp [evictedNames, hfd, ← hlocal] at hin
    · rintro rfl hne
      exact absurd hlocal hne
  · rw [durableAt_publish (hs.setHandle n fd none) hremote hd₀, hslot, hpath,
      Cluster.queue_setHandle]
    have hnames : evictedNames net c (.release n full junk fd)
        = (victims full (c.node n).queue).1 := by
      simp [evictedNames, hfd, hremote, hmode]
    rw [hnames]
    refine and_congr_right fun _ => forall_congr' fun heq => ?_
    subst heq
    simp [hremote, hmode]
  · rw [durableAt_dropCopy hd₀, hslot, hpath]
    have hnames : evictedNames net c (.release n full junk fd) = [] := by
      simp [evictedNames, hfd, hmode]
    rw [hnames, and_iff_right (by simp)]
    refine forall_congr' fun heq => ?_
    subst heq
    simp only [hmode, hremote, ne_eq, not_true_eq_false, not_false_eq_true, false_implies,
      true_implies, true_and]
    exact Iff.rfl

theorem slot_setDisk_unlink_ssd {x y : Bytes} (hxy : y ≠ x) (m : Node) :
    (c.setDisk n ((c.disk n).unlink (net.root.fullpath x))).slot net m y = c.slot net m y := by
  by_cases hmn : m = n
  · subst hmn
    rw [Cluster.slot_setDisk_self]
    exact (Disk.moved_setEntry_ssd (r := net.root) (c.disk m) x none).elsewhere hxy
  · rw [Cluster.slot_setDisk_of_ne _ hmn]

theorem slot_setDisk_unlink_hdd {x y : Bytes} (hxy : y ≠ x) (m : Node) :
    (c.setDisk n ((c.disk n).unlink (net.root.hddpath x))).slot net m y = c.slot net m y := by
  by_cases hmn : m = n
  · subst hmn
    rw [Cluster.slot_setDisk_self]
    exact (Disk.moved_setEntry_hdd (r := net.root) (c.disk m) x none).elsewhere hxy
  · rw [Cluster.slot_setDisk_of_ne _ hmn]

theorem unlink_slot_of_ne {ret : Int} (hc : fusionUnlink net n junk path c = some (ret, c'))
    {q : Bytes} (hq : q ≠ path.bytes) (m : Node) : c'.slot net m q = c.slot net m q := by
  rcases unlink_cases hc with ⟨-, -, rfl⟩ | ⟨val, z, oldaddr, c₁, c₂, -, hc₁, -, -, hc₂, -, rfl⟩
  · rfl
  · have hslot₁ : c₁.slot net m q = c.slot net m q := by
      rw [hc₁]
      split
      · rw [net.root.getHddPath_fullpath, slot_setDisk_unlink_hdd hq]
      · rfl
    rw [slot_setDisk_unlink_ssd hq, ← hslot₁, hc₂]
    split
    · simp [Cluster.slot]
    · rw [slot_ffsRmfile_of_ne _ _ hq]
      simp [Cluster.slot]

theorem unlink_zht_of_ne {ret : Int} (hc : fusionUnlink net n junk path c = some (ret, c'))
    {q : FilePath} (hq : q ≠ path) : c'.zht q.bytes = c.zht q.bytes := by
  have hne : q.bytes ≠ path.bytes := fun heq => hq (FilePath.ext_bytes heq)
  rcases unlink_cases hc with ⟨-, -, rfl⟩ | ⟨val, z, oldaddr, c₁, c₂, -, -, hz, -, hc₂, -, rfl⟩
  · rfl
  · have hz' : zhtRemove z path.bytes q.bytes = c.zht q.bytes := by
      rw [zhtRemove_of_ne hne, zhtDelete_of_ne hz (q.ne_dirname path)]
    rw [Cluster.zht_setDisk, hc₂]
    split
    · exact hz'
    · rw [zht_ffsRmfile]
      exact hz'

theorem unlink_zht {ret : Int} (hc : fusionUnlink net n junk path c = some (ret, c')) :
    c'.zht path.bytes = none := by
  rcases unlink_cases hc with ⟨hnone, -, rfl⟩ | ⟨val, z, oldaddr, c₁, c₂, -, -, -, -, hc₂, -, rfl⟩
  · exact hnone
  · rw [Cluster.zht_setDisk, hc₂]
    split
    · exact zhtRemove_self
    · rw [zht_ffsRmfile]
      exact zhtRemove_self

theorem durableAt_unlink {ret : Int} (hc : fusionUnlink net n junk path c = some (ret, c'))
    (hd : DurableAt net c p) : DurableAt net c' p := by
  by_cases hp : p = path
  · subst hp
    intro m hm
    rw [Registered, unlink_zht hc] at hm
    simp at hm
  · have hne : p.bytes ≠ path.bytes := fun heq => hp (FilePath.ext_bytes heq)
    exact (durableAt_congr (unlink_zht_of_ne hc hp)
      fun m => by rw [unlink_slot_of_ne hc hne m]).mpr hd

end Steps

theorem durableAt_step {c c' : Cluster Node} (hs : Sound net c) {op : Op Node}
    (hstep : step net c op = some c') {p : FilePath} (hd : DurableAt net c p) :
    DurableAt net c' p ↔ KeepsCopyAt net c op p := by
  -- an operation that evicts nothing and releases nothing relies on no copy
  have hquiet : evictedNames net c op = [] → (∀ n full junk fd, op ≠ .release n full junk fd) →
      KeepsCopyAt net c op p := by
    intro hnames hrel
    refine ⟨fun hin => ?_, fun n full junk fd h heq => absurd heq (hrel n full junk fd)⟩
    rw [hnames] at hin
    cases hin
  cases op with
  | create n full path =>
      obtain ⟨⟨fd, c''⟩, hc, rfl⟩ := Option.map_eq_some_iff.mp hstep
      exact durableAt_create hs hc hd
  | getattr n junk x =>
      cases hstep
      exact iff_of_true (durableAt_getattr hs hd) (hquiet rfl (by rintro _ _ _ _ ⟨⟩))
  | «open» n full path mode =>
      obtain ⟨⟨fd, c''⟩, hc, rfl⟩ := Option.map_eq_some_iff.mp hstep
      exact durableAt_open hs hc hd
  | read n fd off size =>
      obtain ⟨_, -, rfl⟩ := Option.map_eq_some_iff.mp hstep
      exact iff_of_true hd (hquiet rfl (by rintro _ _ _ _ ⟨⟩))
  | write n fd off buf =>
      obtain ⟨h, -, -, rfl⟩ := write_cases hstep
      exact iff_of_true ((durableAt_setData _ _).mpr hd) (hquiet rfl (by rintro _ _ _ _ ⟨⟩))
  | truncate n path size =>
      obtain ⟨i, -, rfl⟩ := truncate_cases hstep
      exact iff_of_true ((durableAt_setData _ _).mpr hd) (hquiet rfl (by rintro _ _ _ _ ⟨⟩))
  | release n full junk fd => exact durableAt_release hs hstep hd
  | unlink n junk path =>
      obtain ⟨⟨ret, c''⟩, hc, rfl⟩ := Option.map_eq_some_iff.mp hstep
      exact iff_of_true (durableAt_unlink hc hd) (hquiet rfl (by rintro _ _ _ _ ⟨⟩))

omit [DecidableEq Node] in
theorem Initial.durableAt {c : Cluster Node} (h : Initial c) (p : FilePath) : DurableAt net c p := by
  intro n hn
  have hsome : (c.zht p.bytes).isSome := by
    rcases hn with hn | hn
    · rw [hn]; rfl
    · rw [hn]; rfl
  exact absurd (h.zht _ hsome) p.leaf

/-- **When ownership is durable.** A run keeps a copy behind every registration exactly when each of
its steps finds the copy it relies on. -/
theorem ownership_durable_iff (net : Net Node) (F : Set FilePath) (c : Cluster Node)
    (hinit : Initial c) (ops : List (Op Node)) :
    Always (step net) (Durable net F) c ops ↔ EachStep (step net) (KeepsCopy net F) c ops := by
  have hstart : Sound net c ∧ Durable net F c := ⟨hinit.sound, fun p _ => hinit.durableAt p⟩
  refine always_iff_eachStep (I := fun c => Sound net c ∧ Durable net F c) (fun _ h => h.2) ?_ ?_
    hstart ops
  · intro c op c' ⟨hs, hd⟩ hstep hguard
    exact ⟨hs.step hstep, fun p hp => (durableAt_step hs hstep (hd p hp)).mpr (hguard p hp)⟩
  · intro c op c' ⟨hs, hd⟩ hstep hd' p hp
    exact (durableAt_step hs hstep (hd p hp)).mp (hd' p hp)

/-- A file is written on one node and handed over to another, which opens it for writing. -/
def handedOver : List (Op Bool) :=
  [.create false [] (filePath "/f" path_f), .write false 0 0 (cstr "x"), .release false [] [] 0,
    .getattr true [] (cstr "/f"), .open true [] (filePath "/f" path_f) .rdwr,
    .write true 0 1 (cstr "yz"), .release true [] [] 0]

theorem ownership_durable_iff_handedOver :
    (run (step twoNodes) freshCluster handedOver).any (fun c =>
      c.zht (cstr "/f") = some (twoNodes.ip true) ∧
        ¬(c.slot twoNodes false (cstr "/f")).Holds ∧ (c.slot twoNodes true (cstr "/f")).Holds) = true ∧
      Always (step twoNodes) (Durable twoNodes {filePath "/f" path_f}) freshCluster handedOver := by
  have hkept : Guarded (step twoNodes)
      (fun c op => KeepsCopyAt twoNodes c op (filePath "/f" path_f)) freshCluster handedOver := by
    decide +kernel
  have hkeeps : EachStep (step twoNodes) (KeepsCopy twoNodes {filePath "/f" path_f}) freshCluster
      handedOver := by
    apply Guarded.eachStep
    apply hkept.mono
    rintro c op h p rfl
    exact h
  exact ⟨by decide +kernel,
    (ownership_durable_iff twoNodes _ freshCluster freshCluster_initial handedOver).mpr hkeeps⟩

/-- Another node opens a file twice, for reading and for writing, and releases the reader first. -/
def readerFirst : List (Op Bool) :=
  [.create false [] (filePath "/f" path_f), .release false [] [] 0,
    .getattr true [] (cstr "/f"), .open true [] (filePath "/f" path_f) .rdonly,
    .open true [] (filePath "/f" path_f) .wronly, .release true [] [] 0, .release true [] [] 1]

theorem readerFirst_loses_file :
    ∃ c, run (step twoNodes) freshCluster readerFirst = some c ∧
      c.zht (cstr "/f") = some (twoNodes.ip true) ∧
      ∀ n, ¬ (c.slot twoNodes n (cstr "/f")).Holds := by
  have h : (run (step twoNodes) freshCluster readerFirst).any (fun c =>
      decide (c.zht (cstr "/f") = some (twoNodes.ip true) ∧
        ∀ n, ¬ (c.slot twoNodes n (cstr "/f")).Holds)) = true := by decide +kernel
  obtain ⟨c, hrun, hc⟩ := exists_run_of_any h
  exact ⟨c, hrun, of_decide_eq_true hc⟩

end FusionFS
