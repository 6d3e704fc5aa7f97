import FusionFS.TierFlag

/-!
# Removed files

`fusion_unlink` removes the key of a file and the copies on the calling node and on the owner. A copy
that another node fetched stays, and `fusion_getattr` finds it there.
-/

namespace FusionFS

open SecondChance Transition

variable {Node : Type} [DecidableEq Node] {net : Net Node}

/-- The file has no key, and no node finds anything at its path. -/
def Removed (net : Net Node) (c : Cluster Node) (p : FilePath) : Prop :=
  c.zht p.bytes = none ∧ ∀ n junk, (fusionGetattr net n junk p.bytes c).1 ≠ 0

/-- The files that were removed and not created again. -/
def goneAfter (net : Net Node) (c : Cluster Node) (gone : List FilePath) :
    Op Node → List FilePath
  | .create _ _ path => gone.filter (· ≠ path)
  | .unlink n junk path =>
      if (fusionUnlink net n junk path c).map Prod.fst = some 0 then path :: gone else gone
  | _ => gone

/-- A step of the cluster, with a record of the removed files. -/
def goneStep (net : Net Node) (s : Cluster Node × List FilePath) (op : Op Node) :
    Option (Cluster Node × List FilePath) :=
  (step net s.1 op).map fun c => (c, goneAfter net s.1 s.2 op)

def StaysRemoved (net : Net Node) (s : Cluster Node × List FilePath) : Prop :=
  ∀ p ∈ s.2, Removed net s.1 p

/-- No eviction touches the removed file, and no written handle of it is released. -/
def PassesBy (net : Net Node) (c : Cluster Node) (op : Op Node) (p : FilePath) : Prop :=
  p.bytes ∉ evictedNames net c op ∧ net.root.fullpath p.bytes ∉ evictedNames net c op ∧
  ∀ n full junk fd h, op = .release n full junk fd → (c.node n).fds fd = some h → h.path = p →
    h.mode = .rdonly

/-- Besides the copy on the calling node, the owner has the only one, and on its SSD. -/
def LastCopies (net : Net Node) (c : Cluster Node) (n : Node) (p : FilePath) (nodeaddr : Bool × Bytes) :
    Prop :=
  c.zht (p.bytes ++ [slash]) = none ∧
  ∀ m, m ≠ n → (c.disk m).dir (net.root.fullpath p.bytes) = false ∧
    ((c.slot net m p.bytes).ssd ≠ none → nodeaddr = (false, net.ip m))

/-- A file is removed with its last copies, and what comes later passes removed files by. -/
def LeavesNoCopy (net : Net Node) (s : Cluster Node × List FilePath) (op : Op Node) : Prop :=
  (∀ p ∈ s.2, (∀ n full, op ≠ .create n full p) → PassesBy net s.1 op p) ∧
  ∀ n junk p val, op = .unlink n junk p → s.1.zht p.bytes = some val →
    (s.1.slot net n p.bytes).ssd ≠ none → LastCopies net s.1 n p (realIp junk val)

/-! ### What a removed file looks like -/

/-- Nothing in the store, and nothing on any SSD. -/
structure Vacant (net : Net Node) (c : Cluster Node) (p : FilePath) : Prop where
  key : c.zht p.bytes = none
  dirKey : c.zht (p.bytes ++ [slash]) = none
  ssd : ∀ n, (c.slot net n p.bytes).ssd = none
  dir : ∀ n, (c.disk n).dir (net.root.fullpath p.bytes) = false

namespace Disk

variable {d : Disk} {x : Bytes}

theorem lstat_eq_false_iff : d.lstat x = false ↔ d.entry x = none ∧ d.dir x = false := by
  simp [lstat]

theorem lstat_of_access (h : d.access x = true) : d.lstat x = true := by
  rw [access, show maxSymlinks = 39 + 1 from rfl, resolve] at h
  cases hx : d.entry x with
  | some e => simp [lstat, hx]
  | none => simpa [hx, lstat] using h

end Disk

theorem statFile_eq_zero_iff {d : Disk} {fpath : Bytes} :
    statFile d fpath = 0 ↔ d.lstat fpath = true := by
  unfold statFile
  cases hsym : isSymlinkSsd d fpath with
  | false => simp [enoent]
  | true =>
      unfold isSymlinkSsd at hsym
      cases he : d.entry fpath with
      | none => simp [he] at hsym
      | some e =>
          cases e with
          | file i => simp [he] at hsym
          | link t =>
              simp only [he] at hsym
              have hlink : d.lstat fpath = true := by simp [Disk.lstat, he]
              simp [Disk.lstat_of_access hsym, hlink]

theorem Disk.lstat_mkdir (d : Disk) (x : Bytes) : (d.mkdir x).lstat x = true := by
  unfold Disk.mkdir
  split
  · assumption
  · simp [Disk.lstat]

section Removed

variable {c c' : Cluster Node} {p : FilePath}

theorem Vacant.removed (h : Vacant net c p) : Removed net c p := by
  refine ⟨h.key, fun n junk => ?_⟩
  have hlstat : (c.disk n).lstat (net.root.fullpath p.bytes) = false :=
    Disk.lstat_eq_false_iff.mpr ⟨h.ssd n, h.dir n⟩
  simp [fusionGetattr, h.key, h.dirKey, statFile_eq_zero_iff, hlstat]

theorem Removed.vacant (h : Removed net c p) (n : Node) : Vacant net c p := by
  obtain ⟨hkey, hstat⟩ := h
  have hdirKey : c.zht (p.bytes ++ [slash]) = none := by
    by_contra hne
    obtain ⟨v, hv⟩ := Option.ne_none_iff_exists'.mp hne
    refine hstat n [] ?_
    simp [fusionGetattr, hkey, hv, statFile_eq_zero_iff, Disk.lstat_mkdir]
  have hlstat : ∀ m, (c.disk m).entry (net.root.fullpath p.bytes) = none ∧
      (c.disk m).dir (net.root.fullpath p.bytes) = false := by
    intro m
    have hm := hstat m []
    simp only [fusionGetattr, hkey, hdirKey, ne_eq, statFile_eq_zero_iff, Bool.not_eq_true] at hm
    exact Disk.lstat_eq_false_iff.mp hm
  exact ⟨hkey, hdirKey, fun m => (hlstat m).1, fun m => (hlstat m).2⟩

omit [DecidableEq Node] in
theorem Vacant.congr (hkey : c'.zht p.bytes = c.zht p.bytes)
    (hdirKey : c'.zht (p.bytes ++ [slash]) = c.zht (p.bytes ++ [slash]))
    (hssd : ∀ n, (c'.slot net n p.bytes).ssd = (c.slot net n p.bytes).ssd)
    (hdir : ∀ n, (c'.disk n).dir (net.root.fullpath p.bytes)
      = (c.disk n).dir (net.root.fullpath p.bytes)) : Vacant net c' p ↔ Vacant net c p := by
  constructor
  · intro h
    exact ⟨hkey ▸ h.key, hdirKey ▸ h.dirKey, fun n => hssd n ▸ h.ssd n, fun n => hdir n ▸ h.dir n⟩
  · intro h
    exact ⟨hkey ▸ h.key, hdirKey ▸ h.dirKey, fun n => (hssd n).trans (h.ssd n),
      fun n => (hdir n).trans (h.dir n)⟩

end Removed

/-! ### The steps -/

section Steps

variable {c c' : Cluster Node} {n : Node} {full : List Bool} {junk : Bytes} {path p : FilePath}

theorem FilePath.append_slash_ne (p q : FilePath) : p.bytes ++ [slash] ≠ q.bytes :=
  (q.ne_of_getLast?_slash (by simp)).symm

omit [DecidableEq Node] in
/-- An eviction makes a removed file appear exactly when it takes its name out of the queue, or that of
the file whose SSD path it is. -/
theorem Evicted.vacant_iff {fs : List Bytes} (h : Evicted net n fs c c')
    (hfs : ∀ f ∈ fs, ∃ q : FilePath, f = net.root.fullpath q.bytes) (hv : Vacant net c p) :
    Vacant net c' p ↔ p.bytes ∉ fs ∧ net.root.fullpath p.bytes ∉ fs := by
  constructor
  · intro hv'
    refine ⟨fun hin => ?_, fun hin => ?_⟩
    · have hkey := hv'.key
      rw [h.zht, if_pos hin] at hkey
      cases hkey
    · obtain ⟨t, ht⟩ := h.link p.bytes (hv.dir n) (Or.inl hin)
      rw [hv'.ssd n] at ht
      cases ht
  · rintro ⟨hkey, hname⟩
    have hdirKey : p.bytes ++ [slash] ∉ fs := by
      intro hin
      obtain ⟨q, hq⟩ := hfs _ hin
      exact p.append_slash_ne (net.root.filePath q) hq
    refine (Vacant.congr ?_ ?_ (fun m => ?_) fun m => ?_).mpr hv
    · rw [h.zht, if_neg hkey]
    · rw [h.zht, if_neg hdirKey]
    · by_cases hmn : m = n
      · rw [hmn, h.kept _ hname]
      · rw [Cluster.slot, Cluster.disk, h.other m hmn]
        rfl
    · by_cases hmn : m = n
      · rw [hmn, h.dir]
      · rw [Cluster.disk, h.other m hmn]
        rfl

omit [DecidableEq Node] in
theorem Sound.evicted_vacant_iff (hs : Sound net c) (hev : Evicted net n
    (victims full (c.node n).queue).1 c c') (hv : Vacant net c p) :
    Vacant net c' p ↔ p.bytes ∉ (victims full (c.node n).queue).1 ∧
      net.root.fullpath p.bytes ∉ (victims full (c.node n).queue).1 :=
  hev.vacant_iff (fun f hf => hs.queue n f (mem_names_of_mem_victims hf)) hv

theorem createEntry_of_none {z : Zht} {x addr key : Bytes} (hz : z key = none) (hkey : key ≠ x) :
    createEntry z x addr key = z key := by
  by_cases hdir : key = dirOf x
  · simp [createEntry, ← hdir, hz]
  · exact createEntry_of_ne hdir hkey

theorem vacant_setDisk {d : Disk} (hssd : (d.slot net.root p.bytes).ssd = (c.slot net n p.bytes).ssd)
    (hdir : d.dir (net.root.fullpath p.bytes) = (c.disk n).dir (net.root.fullpath p.bytes)) :
    Vacant net (c.setDisk n d) p ↔ Vacant net c p := by
  refine Vacant.congr rfl rfl (fun m => ?_) fun m => ?_
  · by_cases hmn : m = n
    · subst hmn
      rw [Cluster.slot_setDisk_self, hssd]
    · rw [Cluster.slot_setDisk_of_ne _ hmn]
  · by_cases hmn : m = n
    · subst hmn
      rw [Cluster.disk_setDisk_self, hdir]
    · rw [Cluster.disk_setDisk_of_ne _ _ _ _ hmn]

theorem vacant_create (hs : Sound net c) {fd : Nat}
    (hc : fusionCreate net n full path c = some (fd, c')) (hv : Vacant net c p) (hp : p ≠ path) :
    Vacant net c' p ↔ p.bytes ∉ (victims full (c.node n).queue).1 ∧
      net.root.fullpath p.bytes ∉ (victims full (c.node n).queue).1 := by
  obtain ⟨c₁, ino, hev, hw, hother, -, -, -, -, hzht⟩ := hs.create hc
  have hne : p.bytes ≠ path.bytes := fun heq => hp (FilePath.ext_bytes heq)
  rw [← hs.evicted_vacant_iff hev hv]
  have hdirKey : c₁.zht (p.bytes ++ [slash]) = none := by
    have hnot : p.bytes ++ [slash] ∉ (victims full (c.node n).queue).1 := by
      intro hin
      obtain ⟨q, hq⟩ := hs.queue n _ (mem_names_of_mem_victims hin)
      exact p.append_slash_ne (net.root.filePath q) hq
    rw [hev.zht, if_neg hnot, hv.dirKey]
  refine Vacant.congr ?_ ?_ (fun m => ?_) fun m => ?_
  · rw [hzht, createEntry_of_ne (p.ne_dirname path) hne]
  · rw [hzht, createEntry_of_none hdirKey (p.append_slash_ne path)]
  · by_cases hmn : m = n
    · subst hmn
      rw [Cluster.slot, hw.elsewhere hne]
      rfl
    · rw [Cluster.slot, Cluster.disk, hother m hmn, ← hev.other m hmn]
      rfl
  · by_cases hmn : m = n
    · rw [hmn, hw.dir]
    · rw [Cluster.disk, hother m hmn, ← hev.other m hmn]
      rfl

theorem vacant_getattr (hs : Sound net c) {x : Bytes} (hv : Vacant net c p) :
    Vacant net (fusionGetattr net n junk x c).2 p := by
  rcases hs.getattr n junk x with heq | ⟨-, hkey, heq⟩ | ⟨val, _, _, i, d, hkey, -, -, -, heq, hw⟩
  · rwa [heq]
  · have hx : p.bytes ≠ x := by
      rintro rfl
      rw [hv.dirKey] at hkey
      cases hkey
    rw [heq]
    refine (vacant_setDisk ?_ ?_).mpr hv
    · rw [Disk.slot_mkdir]
      rfl
    · unfold Disk.mkdir
      split
      · rfl
      · exact Function.update_of_ne (fun h => hx (net.root.fullpath_inj.mp h)) ..
  · have hx : p.bytes ≠ x := by
      rintro rfl
      rw [hv.key] at hkey
      cases hkey
    rw [heq]
    refine (vacant_setDisk ?_ (by rw [hw.dir])).mpr hv
    rw [hw.elsewhere hx]
    rfl

theorem vacant_open (hs : Sound net c) {fd : Nat} {mode : OpenMode}
    (hc : fusionOpen net n full path mode c = some (fd, c')) (hv : Vacant net c p) :
    Vacant net c' p ↔ p.bytes ∉ evictedNames net c (.open n full path mode) ∧
      net.root.fullpath p.bytes ∉ evictedNames net c (.open n full path mode) := by
  obtain ⟨c₁, q, ino, hprom, hino, hdisk, hzht, -⟩ := hs.open hc
  have hdisk' : Vacant net c' p ↔ Vacant net c₁ p :=
    Vacant.congr (by rw [hzht]) (by rw [hzht])
      (fun m => by rw [Cluster.slot, hdisk m, Cluster.slot]) fun m => by rw [hdisk m]
  rw [hdisk']
  rcases hprom with ⟨hsym, rfl, -⟩ | ⟨hsym, -, c₀, d, hev, rfl, hmoved, -⟩
  · exact iff_of_true hv (by simp [evictedNames, hsym])
  · have hne : p.bytes ≠ path.bytes := by
      intro heq
      obtain ⟨t, ht⟩ := link_of_isSymlinkSsd hsym
      rw [← heq] at ht
      exact absurd (hv.ssd n ▸ ht : none = some (DirEntry.link t)) (by simp)
    have hcongr : Vacant net (c₀.setDisk n d) p ↔ Vacant net c₀ p := by
      refine vacant_setDisk ?_ (by rw [hmoved.dir])
      rw [hmoved.elsewhere hne]
      rfl
    rw [hcongr, hs.evicted_vacant_iff hev hv]
    simp [evictedNames, hsym]

/-- The removal of a file by another node takes its SSD path there, unless the flag points to the
HDD. -/
theorem ssd_ffsRmfile (addr x : Bytes) (flag : Bool) (m : Node) :
    ((ffsRmfile net addr (remotePath (net.root.fullpath x) flag) c).slot net m x).ssd
      = if (flag, addr) = (false, net.ip m) then none else (c.slot net m x).ssd := by
  rcases ffsRmfile_cases net addr x flag c with ⟨hhost, heq⟩ | ⟨k, d, hhost, heq, hmoved⟩
  · have haddr : addr ≠ net.ip m := by
      intro haddr
      rw [(net.host_iff addr m).mpr haddr] at hhost
      cases hhost
    rw [heq, if_neg (by simp [haddr])]
  · obtain rfl := (net.host_iff addr k).mp hhost
    rw [heq]
    by_cases hmk : m = k
    · subst hmk
      rw [Cluster.slot_setDisk_self, hmoved.at]
      cases flag <;> simp
    · rw [Cluster.slot_setDisk_of_ne _ hmk, if_neg]
      simpa using fun _ => fun hip => hmk (ip_inj hip).symm

theorem dir_ffsRmfile (addr remote : Bytes) (m : Node) :
    ((ffsRmfile net addr remote c).disk m).dir = (c.disk m).dir := by
  unfold ffsRmfile
  cases net.host addr with
  | none => rfl
  | some k =>
      by_cases hmk : m = k
      · subst hmk
        simp [Disk.unlink]
      · simp [hmk]

omit [DecidableEq Node] in
/-- The key of a removed file reads as no address at all, so that every node is a foreign one. -/
theorem Vacant.remote (hv : Vacant net c p) (n : Node) (junk : Bytes) :
    net.ip n ≠ (realIp junk (zhtValue c.zht p.bytes)).2 := by
  have hval : zhtValue c.zht p.bytes = [] := by simp [zhtValue, hv.key]
  rw [hval, realIp_of_notMem (by simp)]
  exact net.ip_ne_nil n

theorem vacant_publish (hs : Sound net c) {nodeaddr : Bool × Bytes} {q : FilePath}
    (hv : Vacant net c p) :
    Vacant net (publish net n full q.bytes nodeaddr c) p ↔
      p.bytes ∉ (victims full (c.node n).queue).1 ∧
        net.root.fullpath p.bytes ∉ (victims full (c.node n).queue).1 ∧ q ≠ p := by
  obtain ⟨c₁, hc₁, hs₁, hq₁, hev, -⟩ := hs.publish n full q.bytes nodeaddr
  have hz₁ : c₁.zht = zhtInsert c.zht q.bytes (net.ip n) := by
    rw [hc₁, zht_ffsRmfile]
    rfl
  by_cases hqp : q = p
  · subst hqp
    refine iff_of_false (fun hv' => ?_) fun hg => hg.2.2 rfl
    have hkey := hv'.key
    rw [hev.zht, hz₁, zhtInsert_self] at hkey
    split at hkey <;> cases hkey
  · have hne : p.bytes ≠ q.bytes := fun heq => hqp (FilePath.ext_bytes heq).symm
    have hv₁ : Vacant net c₁ p := by
      refine (Vacant.congr ?_ ?_ (fun m => ?_) fun m => ?_).mpr hv
      · rw [hz₁, zhtInsert_of_ne hne]
      · rw [hz₁, zhtInsert_of_ne (p.append_slash_ne q)]
      · rw [hc₁, slot_ffsRmfile_of_ne _ _ hne]
        rfl
      · rw [hc₁, dir_ffsRmfile]
        rfl
    rw [← hq₁] at hev ⊢
    rw [hs₁.evicted_vacant_iff hev hv₁]
    simp [hqp]

theorem vacant_dropCopy {q : Bytes} (hv : Vacant net c p) : Vacant net (dropCopy net n q c) p := by
  have hmoved : Disk.Moved net.root (c.disk n) ((c.disk n).unlink (net.root.fullpath q)) q
      { c.slot net n q with ssd := none } := Disk.moved_setEntry_ssd (c.disk n) q none
  have hdrop : Vacant net (dropCopy net n q c) p ↔
      Vacant net (c.setDisk n ((c.disk n).unlink (net.root.fullpath q))) p :=
    Vacant.congr rfl rfl (fun m => by simp [dropCopy, Cluster.slot]) fun m => by simp [dropCopy]
  rw [hdrop]
  refine (vacant_setDisk ?_ (by rw [hmoved.dir])).mpr hv
  by_cases hp : p.bytes = q
  · rw [hp, hmoved.at, ← hp, hv.ssd n]
  · rw [hmoved.elsewhere hp]
    rfl

theorem vacant_release (hs : Sound net c) {fd : Nat}
    (hc : fusionRelease net n full junk fd c = some c') (hv : Vacant net c p) :
    Vacant net c' p ↔ PassesBy net c (.release n full junk fd) p := by
  obtain ⟨h, nodeaddr, hfd, rfl, hcase⟩ := release_cases hc
  have hv₀ : Vacant net (c.setHandle n fd none) p := by
    have hcongr : Vacant net (c.setHandle n fd none) p ↔ Vacant net c p :=
      Vacant.congr rfl rfl (fun m => by simp [Cluster.slot]) fun m => by simp
    exact hcongr.mpr hv
  have hguard : PassesBy net c (.release n full junk fd) p ↔
      p.bytes ∉ evictedNames net c (.release n full junk fd) ∧
        net.root.fullpath p.bytes ∉ evictedNames net c (.release n full junk fd) ∧
        (h.path = p → h.mode = .rdonly) := by
    refine and_congr_right fun _ => and_congr_right fun _ => ⟨fun hg => ?_, fun hg => ?_⟩
    · exact hg n full junk fd h rfl hfd
    · rintro _ _ _ _ h' ⟨⟩ hfd'
      rw [hfd, Option.some.injEq] at hfd'
      exact hfd' ▸ hg
  rw [hguard]
  rcases hcase with ⟨hlocal, rfl⟩ | ⟨hremote, hmode, rfl⟩ | ⟨hremote, hmode, rfl⟩
  · refine iff_of_true hv₀ ?_
    have hpath : h.path ≠ p := by
      rintro rfl
      exact hv.remote n junk hlocal
    simp [evictedNames, hfd, ← hlocal, hpath]
  · rw [vacant_publish (hs.setHandle n fd none) hv₀, Cluster.queue_setHandle]
    simp [evictedNames, hfd, hremote, hmode]
  · refine iff_of_true (vacant_dropCopy hv₀) ?_
    simp [evictedNames, hfd, hmode]

/-- What `fusion_unlink` leaves of the SSD places of its file, on the calling node and elsewhere. -/
theorem unlink_ssd {ret : Int} {val : Bytes} (hval : c.zht path.bytes = some val)
    (hc : fusionUnlink net n junk path c = some (ret, c')) :
    (ret = 0 ↔ (c.slot net n path.bytes).ssd ≠ none) ∧ (c'.slot net n path.bytes).ssd = none ∧
    ∀ m, m ≠ n → (c'.slot net m path.bytes).ssd =
      if realIp junk val = (false, net.ip m) then none else (c.slot net m path.bytes).ssd := by
  rcases unlink_cases hc with ⟨hnone, -⟩ | ⟨val', z, oldaddr, c₁, c₂, hval', hc₁, -, rfl, hc₂, hret, rfl⟩
  · rw [hval] at hnone
    cases hnone
  · obtain rfl : val = val' := Option.some.inj (hval.symm.trans hval')
    have hssd₁ : ∀ m, (c₁.slot net m path.bytes).ssd = (c.slot net m path.bytes).ssd := by
      intro m
      rw [hc₁]
      split
      · rw [net.root.getHddPath_fullpath]
        by_cases hmn : m = n
        · subst hmn
          rw [Cluster.slot_setDisk_self, Disk.unlink,
            (Disk.moved_setEntry_hdd (r := net.root) (c.disk m) path.bytes none).at]
          rfl
        · rw [Cluster.slot_setDisk_of_ne _ hmn]
      · rfl
    have hssd₂ : ∀ m, (c₂.slot net m path.bytes).ssd =
        if net.ip n ≠ (realIp junk val).2 ∧ realIp junk val = (false, net.ip m)
          then none else (c.slot net m path.bytes).ssd := by
      intro m
      rw [hc₂]
      split
      · rename_i hlocal
        rw [if_neg (fun h => h.1 hlocal), ← hssd₁ m]
        simp [Cluster.slot]
      · rename_i hremote
        rw [ssd_ffsRmfile]
        simp only [hremote, ne_eq, not_false_eq_true, true_and]
        split
        · rfl
        · rw [← hssd₁ m]
          simp [Cluster.slot]
    have hself : (c₂.slot net n path.bytes).ssd = (c.slot net n path.bytes).ssd := by
      rw [hssd₂, if_neg]
      rintro ⟨hremote, heq⟩
      rw [heq] at hremote
      exact hremote rfl
    have hmoved := Disk.moved_setEntry_ssd (r := net.root) (c₂.disk n) path.bytes none
    refine ⟨?_, ?_, fun m hmn => ?_⟩
    · have hentry : (c₂.disk n).entry (net.root.fullpath path.bytes)
          = (c.slot net n path.bytes).ssd := hself
      rw [hret, hentry]
      cases (c.slot net n path.bytes).ssd <;> simp [enoent]
    · rw [Cluster.slot_setDisk_self, Disk.unlink, hmoved.at]
    · rw [Cluster.slot_setDisk_of_ne _ hmn, hssd₂ m]
      by_cases heq : realIp junk val = (false, net.ip m)
      · have hremote : net.ip n ≠ (realIp junk val).2 := by
          rw [heq]
          exact fun hip => hmn (ip_inj hip).symm
        rw [if_pos heq, if_pos ⟨hremote, heq⟩]
      · rw [if_neg heq, if_neg fun h => heq h.2]

theorem unlink_dir {ret : Int} (hc : fusionUnlink net n junk path c = some (ret, c')) (m : Node) :
    (c'.disk m).dir = (c.disk m).dir := by
  have hunlink : ∀ (c : Cluster Node) x, ((c.setDisk n ((c.disk n).unlink x)).disk m).dir
      = (c.disk m).dir := by
    intro c x
    by_cases hmn : m = n
    · subst hmn
      simp [Disk.unlink]
    · simp [hmn]
  rcases unlink_cases hc with ⟨-, -, rfl⟩ | ⟨val, z, oldaddr, c₁, c₂, -, hc₁, -, -, hc₂, -, rfl⟩
  · rfl
  · have hdir₁ : (c₁.disk m).dir = (c.disk m).dir := by
      rw [hc₁]
      split
      · exact hunlink c _
      · rfl
    rw [hunlink, hc₂]
    split
    · simpa using hdir₁
    · rw [dir_ffsRmfile]
      simpa using hdir₁

theorem unlink_dirKey {ret : Int} (hc : fusionUnlink net n junk path c = some (ret, c')) :
    c'.zht (p.bytes ++ [slash]) = none ↔ c.zht (p.bytes ++ [slash]) = none := by
  rcases unlink_cases hc with ⟨-, -, rfl⟩ | ⟨val, z, oldaddr, c₁, c₂, -, -, hz, -, hc₂, -, rfl⟩
  · rfl
  · have hz₂ : c₂.zht = zhtRemove z path.bytes := by
      rw [hc₂]
      split
      · rfl
      · rw [zht_ffsRmfile]
        rfl
    rw [Cluster.zht_setDisk, hz₂, zhtRemove_of_ne (p.append_slash_ne path)]
    by_cases hdir : p.bytes ++ [slash] = path.dirname
    · obtain ⟨hold, hnew⟩ := zhtDelete_self hz
      rw [hdir]
      exact iff_of_false hnew hold
    · rw [zhtDelete_of_ne hz hdir]

theorem vacant_unlink_of_ne {ret : Int} (hc : fusionUnlink net n junk path c = some (ret, c'))
    (hv : Vacant net c p) (hp : p ≠ path) : Vacant net c' p := by
  have hne : p.bytes ≠ path.bytes := fun heq => hp (FilePath.ext_bytes heq)
  exact ⟨(unlink_zht_of_ne hc hp).trans hv.key, (unlink_dirKey hc).mpr hv.dirKey,
    fun m => by rw [unlink_slot_of_ne hc hne m, hv.ssd m],
    fun m => by rw [unlink_dir hc m, hv.dir m]⟩

/-- A removed file is gone when the calling node and the owner had its last copies. -/
theorem vacant_unlink_self (hs : Sound net c) {val : Bytes} (hval : c.zht path.bytes = some val)
    (hc : fusionUnlink net n junk path c = some (0, c')) :
    Vacant net c' path ↔ LastCopies net c n path (realIp junk val) := by
  obtain ⟨hret, hself, hother⟩ := unlink_ssd hval hc
  have hdir : (c.disk n).dir (net.root.fullpath path.bytes) = false :=
    (hs.sane n).ssd_dir path.bytes (hret.mp rfl)
  constructor
  · intro hv
    refine ⟨(unlink_dirKey hc).mp hv.dirKey, fun m hmn => ⟨?_, fun hne => ?_⟩⟩
    · rw [← unlink_dir hc m, hv.dir m]
    · by_contra hcopy
      have hssd := hother m hmn
      rw [hv.ssd m, if_neg hcopy] at hssd
      exact hne hssd.symm
  · rintro ⟨hdirKey, hlast⟩
    refine ⟨unlink_zht hc, (unlink_dirKey hc).mpr hdirKey, fun m => ?_, fun m => ?_⟩
    · by_cases hmn : m = n
      · rw [hmn, hself]
      · rw [hother m hmn]
        split
        · rfl
        · rename_i hcopy
          exact not_not.mp fun hne => hcopy ((hlast m hmn).2 hne)
    · rw [unlink_dir hc m]
      by_cases hmn : m = n
      · rw [hmn, hdir]
      · exact (hlast m hmn).1

end Steps

theorem vacant_step {c c' : Cluster Node} (hs : Sound net c) {op : Op Node}
    (hstep : step net c op = some c') {p : FilePath} (hv : Vacant net c p)
    (hp : ∀ n full, op ≠ .create n full p) : Vacant net c' p ↔ PassesBy net c op p := by
  have hquiet : evictedNames net c op = [] → (∀ n full junk fd, op ≠ .release n full junk fd) →
      PassesBy net c op p := by
    intro hnames hrel
    rw [PassesBy, hnames]
    exact ⟨by simp, by simp, fun n full junk fd h heq => absurd heq (hrel n full junk fd)⟩
  have hdata : ∀ n i content, Vacant net (c.setDisk n ((c.disk n).setData i content)) p := by
    intro n i content
    have hcongr : Vacant net (c.setDisk n ((c.disk n).setData i content)) p ↔ Vacant net c p :=
      vacant_setDisk (by rw [Disk.slot_setData]; rfl) rfl
    exact hcongr.mpr hv
  cases op with
  | create n full path =>
      obtain ⟨⟨fd, c''⟩, hc, rfl⟩ := Option.map_eq_some_iff.mp hstep
      have hne : p ≠ path := by
        rintro rfl
        exact hp n full rfl
      rw [vacant_create hs hc hv hne, PassesBy]
      exact and_congr_right fun _ => (and_iff_left (by rintro _ _ _ _ _ ⟨⟩)).symm
  | getattr n junk x =>
      cases hstep
      exact iff_of_true (vacant_getattr hs hv) (hquiet rfl (by rintro _ _ _ _ ⟨⟩))
  | «open» n full path mode =>
      obtain ⟨⟨fd, c''⟩, hc, rfl⟩ := Option.map_eq_some_iff.mp hstep
      rw [vacant_open hs hc hv, PassesBy]
      exact and_congr_right fun _ => (and_iff_left (by rintro _ _ _ _ _ ⟨⟩)).symm
  | read n fd off size =>
      obtain ⟨_, -, rfl⟩ := Option.map_eq_some_iff.mp hstep
      exact iff_of_true hv (hquiet rfl (by rintro _ _ _ _ ⟨⟩))
  | write n fd off buf =>
      obtain ⟨h, -, -, rfl⟩ := write_cases hstep
      exact iff_of_true (hdata _ _ _) (hquiet rfl (by rintro _ _ _ _ ⟨⟩))
  | truncate n path size =>
      obtain ⟨i, -, rfl⟩ := truncate_cases hstep
      exact iff_of_true (hdata _ _ _) (hquiet rfl (by rintro _ _ _ _ ⟨⟩))
  | release n full junk fd => exact vacant_release hs hstep hv
  | unlink n junk path =>
      obtain ⟨⟨ret, c''⟩, hc, rfl⟩ := Option.map_eq_some_iff.mp hstep
      refine iff_of_true ?_ (hquiet rfl (by rintro _ _ _ _ ⟨⟩))
      by_cases hpp : p = path
      · rcases unlink_cases hc with ⟨-, -, rfl⟩ | ⟨val, z, oldaddr, c₁, c₂, hval, -⟩
        · exact hv
        · rw [← hpp, hv.key] at hval
          cases hval
      · exact vacant_unlink_of_ne hc hv hpp

theorem mem_goneAfter {c : Cluster Node} {gone : List FilePath} {op : Op Node} {p : FilePath} :
    p ∈ goneAfter net c gone op ↔
      (p ∈ gone ∧ ∀ n full, op ≠ .create n full p) ∨
      ∃ n junk, op = .unlink n junk p ∧ (fusionUnlink net n junk p c).map Prod.fst = some 0 := by
  cases op with
  | create n full path =>
      simp only [goneAfter, List.mem_filter, decide_eq_true_eq, reduceCtorEq, false_and,
        exists_false, or_false]
      refine and_congr_right fun _ => ⟨?_, fun hne heq => hne n full (by rw [heq])⟩
      rintro hne _ _ ⟨⟩
      exact hne rfl
  | unlink n junk path =>
      simp only [goneAfter]
      split
      · rename_i hret
        simp only [List.mem_cons, reduceCtorEq, ne_eq, not_false_eq_true, implies_true, and_true,
          Op.unlink.injEq]
        constructor
        · rintro (rfl | hp)
          · exact Or.inr ⟨n, junk, ⟨rfl, rfl, rfl⟩, hret⟩
          · exact Or.inl hp
        · rintro (hp | ⟨_, _, ⟨rfl, rfl, rfl⟩, -⟩)
          · exact Or.inr hp
          · exact Or.inl rfl
      · rename_i hret
        simp only [reduceCtorEq, ne_eq, not_false_eq_true, implies_true, and_true, Op.unlink.injEq]
        refine ⟨Or.inl, ?_⟩
        rintro (hp | ⟨_, _, ⟨rfl, rfl, rfl⟩, hret'⟩)
        · exact hp
        · exact absurd hret' hret
  | _ => simp [goneAfter]

/-- **When removed files stay removed.** After a successful `fusion_unlink` and until the next
`fusion_create`, nothing shows the file again, along exactly those runs in which each removal takes
the last copies and every later step passes the removed files by. -/
theorem stays_removed_iff (net : Net Node) (c : Cluster Node) (hinit : Initial c)
    (ops : List (Op Node)) :
    Always (goneStep net) (StaysRemoved net) (c, []) ops ↔
      EachStep (goneStep net) (LeavesNoCopy net) (c, []) ops := by
  have hstart : Sound net c ∧ ∀ p ∈ ([] : List FilePath), Vacant net c p :=
    ⟨hinit.sound, fun p hp => absurd hp List.not_mem_nil⟩
  refine always_iff_eachStep
    (I := fun s : Cluster Node × List FilePath => Sound net s.1 ∧ ∀ p ∈ s.2, Vacant net s.1 p)
    (fun _ h p hp => (h.2 p hp).removed) ?_ ?_ hstart ops
  · rintro ⟨c, gone⟩ op s' ⟨hs, hv⟩ hgone ⟨hpass, hlast⟩
    obtain ⟨c', hstep, rfl⟩ := Option.map_eq_some_iff.mp hgone
    refine ⟨hs.step hstep, fun p hp => ?_⟩
    rcases mem_goneAfter.mp hp with ⟨hp, hne⟩ | ⟨n, junk, rfl, hret⟩
    · exact (vacant_step hs hstep (hv p hp) hne).mpr (hpass p hp hne)
    · obtain ⟨⟨ret, c''⟩, hc, rfl⟩ := Option.map_eq_some_iff.mp hstep
      rw [hc] at hret
      obtain rfl : ret = 0 := Option.some.inj hret
      rcases unlink_cases hc with ⟨-, hret, -⟩ | ⟨val, -, -, -, -, hval, -⟩
      · cases hret
      · exact (vacant_unlink_self hs hval hc).mpr
          (hlast n junk p val rfl hval ((unlink_ssd hval hc).1.mp rfl))
  · rintro ⟨c, gone⟩ op s' ⟨hs, hv⟩ hgone hremoved
    obtain ⟨c', hstep, rfl⟩ := Option.map_eq_some_iff.mp hgone
    have hvacant : ∀ p ∈ goneAfter net c gone op, Vacant net c' p :=
      fun p hp => (hremoved p hp).vacant op.node
    refine ⟨fun p hp hne => ?_, ?_⟩
    · exact (vacant_step hs hstep (hv p hp) hne).mp (hvacant p (mem_goneAfter.mpr (Or.inl ⟨hp, hne⟩)))
    · rintro n junk p val rfl hval hssd
      obtain ⟨⟨ret, c''⟩, hc, heq⟩ := Option.map_eq_some_iff.mp hstep
      obtain rfl : c'' = c' := heq
      obtain rfl : ret = 0 := (unlink_ssd hval hc).1.mpr hssd
      refine (vacant_unlink_self hs hval hc).mp (hvacant p (mem_goneAfter.mpr (Or.inr ?_)))
      exact ⟨n, junk, rfl, by rw [hc]; rfl⟩

/-- Another node looks at a file before its owner removes it. -/
def lookedAt : List (Op Bool) :=
  [.create false [] (filePath "/f" path_f), .release false [] [] 0,
    .getattr true [] (cstr "/f"), .unlink false [] (filePath "/f" path_f)]

theorem stays_removed_iff_lookedAt :
    Always (goneStep twoNodes) (StaysRemoved twoNodes) (freshCluster, []) lookedAt ↔
      EachStep (goneStep twoNodes) (LeavesNoCopy twoNodes) (freshCluster, []) lookedAt :=
  stays_removed_iff twoNodes freshCluster freshCluster_initial lookedAt

/-- `fusion_unlink` has returned 0, and the other node still finds the file. -/
theorem lookedAt_reappears :
    ∃ s, run (goneStep twoNodes) (freshCluster, []) lookedAt = some s ∧
      s.2 = [filePath "/f" (by decide)] ∧
      (fusionGetattr twoNodes true [] (cstr "/f") s.1).1 = 0 := by
  have h : (run (goneStep twoNodes) (freshCluster, []) lookedAt).any (fun s =>
      decide (s.2 = [filePath "/f" (by decide)] ∧
        (fusionGetattr twoNodes true [] (cstr "/f") s.1).1 = 0)) = true := by decide +kernel
  obtain ⟨s, hrun, hs⟩ := exists_run_of_any h
  exact ⟨s, hrun, of_decide_eq_true hs⟩

end FusionFS
