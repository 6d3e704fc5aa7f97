import FusionFS.TierFlag

/-!
# Removing a file from another node

The caller sends one path to the owner of a file. The flag in the metadata store says which of the
two that is; on the disk of the owner an evicted file is a link and a file.
-/

namespace FusionFS

open Transition

section Slots

/-- What the daemon leaves of a file: it unlinks the path the flag names. -/
def Slot.unlinked (hddFlag : Bool) (s : Slot) : Slot :=
  if hddFlag then { s with hdd := none } else { s with ssd := none }

/-- The file on the SSD, or a link there and the file on the HDD. -/
inductive Placed (r : Root) (path : Bytes) : Slot → Prop
  | regular (i : Nat) : Placed r path ⟨some (.file i), none⟩
  | evicted (i : Nat) : Placed r path ⟨some (.link (r.hddpath path)), some (.file i)⟩

theorem unlinked_eq_none_iff {r : Root} {path : Bytes} {s : Slot} (h : Placed r path s)
    (hddFlag : Bool) :
    s.unlinked hddFlag = ⟨none, none⟩ ↔ (∃ i, s = ⟨some (.file i), none⟩) ∧ hddFlag = false := by
  cases h with
  | regular i => cases hddFlag <;> simp [Slot.unlinked]
  | evicted i => cases hddFlag <;> simp [Slot.unlinked]

end Slots

variable {Node : Type} [DecidableEq Node]

/-- The store names `m` as the owner of the file, and a request to it gets there. -/
def OwnedBy (net : Net Node) (junk : Bytes) (c : Cluster Node) (p : FilePath) (hddFlag : Bool)
    (m : Node) : Prop :=
  ∃ val, c.zht p.bytes = some val ∧ (realIp junk val).1 = hddFlag ∧
    net.host (realIp junk val).2 = some m

/-- A call that removes the file where its owner keeps it: `fusion_unlink` that returns 0, or
`fusion_release` of a descriptor the file was open for writing under. -/
inductive RemoteRemoval (net : Net Node) (n : Node) (junk : Bytes) (p : FilePath)
    (c c' : Cluster Node) : Prop
  | unlink (h : fusionUnlink net n junk p c = some (0, c'))
  | release (full : List Bool) (fd : Nat) (hd : Handle) (hfd : (c.node n).fds fd = some hd)
      (hpath : hd.path = p) (hmode : hd.mode ≠ .rdonly)
      (h : fusionRelease net n full junk fd c = some c')

/-- Neither the SSD path of the file nor its HDD counterpart is there any more. -/
def GoneFrom (net : Net Node) (c : Cluster Node) (m : Node) (p : FilePath) : Prop :=
  (c.disk m).entry (net.root.fullpath p.bytes) = none ∧
    (c.disk m).entry (getHddPath (net.root.fullpath p.bytes)) = none

instance (net : Net Node) (c : Cluster Node) (m : Node) (p : FilePath) :
    Decidable (GoneFrom net c m p) :=
  inferInstanceAs (Decidable (_ ∧ _))

variable {net : Net Node} {c c' : Cluster Node} {n m : Node} {junk : Bytes} {p : FilePath}

omit [DecidableEq Node] in
theorem goneFrom_iff : GoneFrom net c m p ↔ c.slot net m p.bytes = ⟨none, none⟩ := by
  rw [GoneFrom, net.root.getHddPath_fullpath, Cluster.slot, Disk.slot, Slot.mk.injEq]

omit [DecidableEq Node] in
theorem slot_congr {x : Bytes} (h : c'.disk m = c.disk m) : c'.slot net m x = c.slot net m x := by
  rw [Cluster.slot, h, Cluster.slot]

theorem slot_ffsRmfile {addr x : Bytes} (hddFlag : Bool) (hhost : net.host addr = some m) :
    (ffsRmfile net addr (remotePath (net.root.fullpath x) hddFlag) c).slot net m x
      = (c.slot net m x).unlinked hddFlag := by
  rcases ffsRmfile_cases net addr x hddFlag c with ⟨hnone, -⟩ | ⟨k, d, hk, heq, hmoved⟩
  · rw [hhost] at hnone
    cases hnone
  · obtain rfl : m = k := Option.some.inj (hhost.symm.trans hk)
    rw [heq, Cluster.slot_setDisk_self, hmoved.at]
    rfl

theorem disk_evictAll_of_ne (hne : m ≠ n) (fnames : List Bytes) :
    (evictAll net n fnames c).disk m = c.disk m := by
  induction fnames generalizing c with
  | nil => rfl
  | cons fname fnames ih =>
      calc (evictAll net n (fname :: fnames) c).disk m
          = (evictAll net n fnames (evictFile net n fname c)).disk m := rfl
        _ = (evictFile net n fname c).disk m := ih
        _ = c.disk m := by simp [evictFile, hne]

theorem disk_evictLoop_of_ne (hne : m ≠ n) (full : List Bool) :
    (evictLoop net n full c).disk m = c.disk m := by
  rw [evictLoop_eq, Cluster.disk_setQueue]
  apply disk_evictAll_of_ne hne

/-- The owner loses the path that the flag names, and keeps the other one. -/
theorem RemoteRemoval.slot {hddFlag : Bool} (hne : n ≠ m) (howned : OwnedBy net junk c p hddFlag m)
    (hcall : RemoteRemoval net n junk p c c') :
    c'.slot net m p.bytes = (c.slot net m p.bytes).unlinked hddFlag := by
  obtain ⟨val, hval, rfl, hhost⟩ := howned
  have hmn : m ≠ n := hne.symm
  have hremote : net.ip n ≠ (realIp junk val).2 := by
    intro heq
    have hself : net.host (realIp junk val).2 = some n := (net.host_iff _ n).mpr heq.symm
    exact hne (Option.some.inj (hself.symm.trans hhost))
  cases hcall with
  | unlink h =>
      rcases unlink_cases h with ⟨hnone, -⟩ | ⟨v, z, oldaddr, c₁, c₂, hv, hc₁, -, rfl, hc₂, -, rfl⟩
      · rw [hval] at hnone
        cases hnone
      · obtain rfl : val = v := Option.some.inj (hval.symm.trans hv)
        -- the link and the file of a local copy are on another disk
        have hlocal : c₁.disk m = c.disk m := by
          rw [hc₁]
          split
          · simp [hmn]
          · rfl
        rw [Cluster.slot_setDisk_of_ne _ hmn, hc₂, if_neg hremote, slot_ffsRmfile _ hhost]
        congr 1
        apply slot_congr
        simp [hlocal]
  | release full fd hd hfd hpath hmode h =>
      obtain ⟨hd', nodeaddr, hfd', rfl, hcase⟩ := release_cases h
      obtain rfl : hd = hd' := Option.some.inj (hfd.symm.trans hfd')
      rw [hpath, zhtValue_of_eq hval] at hcase
      rcases hcase with ⟨hlocal, -⟩ | ⟨-, -, rfl⟩ | ⟨-, hro, -⟩
      · exact absurd hlocal hremote
      · rw [publish, slot_congr (disk_evictLoop_of_ne hmn full), slot_ffsRmfile _ hhost]
        congr 1
        apply slot_congr
        simp
      · exact absurd hro hmode

/-- Deletion is complete where one path is all there is and the flag names it. -/
theorem remoteRemoval_iff (net : Net Node) (n m : Node) (junk : Bytes) (p : FilePath)
    (hddFlag : Bool) (c c' : Cluster Node) (hne : n ≠ m) (howned : OwnedBy net junk c p hddFlag m)
    (hplaced : Placed net.root p.bytes (c.slot net m p.bytes))
    (hcall : RemoteRemoval net n junk p c c') :
    GoneFrom net c' m p ↔
      (∃ i, c.slot net m p.bytes = ⟨some (.file i), none⟩) ∧ hddFlag = false := by
  rw [goneFrom_iff, hcall.slot hne howned]
  exact unlinked_eq_none_iff hplaced hddFlag

/-- A file is created on one node and looked at from the other. -/
def seenRemotely : List (Op Bool) :=
  [.create false [] (filePath "/f" path_f), .release false [] [] 0,
    .getattr true [] (cstr "/f")]

/-- The other node removes it, and on the SSD of its owner it is gone. -/
theorem remoteRemoval_iff_seenRemotely :
    ∃ c c', run (fuseStep twoNodes) freshCluster seenRemotely = some c ∧
      fusionUnlink twoNodes true [] (filePath "/f" (by decide)) c = some (0, c') ∧
      (GoneFrom twoNodes c' false (filePath "/f" (by decide)) ↔
        (∃ i, c.slot twoNodes false (cstr "/f") = ⟨some (.file i), none⟩) ∧ false = false) := by
  have h : (run (fuseStep twoNodes) freshCluster seenRemotely).any (fun c =>
      decide (c.zht (cstr "/f") = some (twoNodes.ip false) ∧
        c.slot twoNodes false (cstr "/f") = ⟨some (.file 0), none⟩ ∧
        (fusionUnlink twoNodes true [] (filePath "/f" (by decide)) c).any
          (fun r => decide (r.1 = 0)) = true)) = true := by decide +kernel
  obtain ⟨c, hrun, hc⟩ := exists_run_of_any h
  obtain ⟨hz, hslot, hany⟩ := of_decide_eq_true hc
  obtain ⟨⟨ret, c'⟩, hcall, hret⟩ := (Option.any_eq_true _ _).mp hany
  obtain rfl : ret = 0 := of_decide_eq_true hret
  refine ⟨c, c', hrun, hcall, ?_⟩
  apply remoteRemoval_iff twoNodes true false [] _ false c c' (by decide) ⟨_, hz, by decide, by decide⟩
  · exact hslot ▸ Placed.regular 0
  · exact .unlink hcall

/-- The file is evicted on its owner before the other node looks at it. -/
def evictedThenSeen : List (Op Bool) :=
  evictFirst ++ [.getattr true [] (cstr "/f")]

/-- `fusion_unlink` returns 0, and the data stays on the HDD of the owner. -/
theorem not_remoteRemoval :
    ∃ c c', run (fuseStep twoNodes) freshCluster evictedThenSeen = some c ∧
      OwnedBy twoNodes [] c (filePath "/f" (by decide)) false false ∧
      Placed twoNodes.root (cstr "/f") (c.slot twoNodes false (cstr "/f")) ∧
      fusionUnlink twoNodes true [] (filePath "/f" (by decide)) c = some (0, c') ∧
      ¬ GoneFrom twoNodes c' false (filePath "/f" (by decide)) ∧
      ∃ i, (c'.disk false).entry (cstr "/mnt/hdd/f") = some (.file i) := by
  have h : (run (fuseStep twoNodes) freshCluster evictedThenSeen).any (fun c =>
      decide (c.zht (cstr "/f") = some (twoNodes.ip false) ∧
        c.slot twoNodes false (cstr "/f") = ⟨some (.link (cstr "/mnt/hdd/f")), some (.file 0)⟩ ∧
        (fusionUnlink twoNodes true [] (filePath "/f" (by decide)) c).any
          (fun r => decide (r.1 = 0 ∧ ¬ GoneFrom twoNodes r.2 false (filePath "/f" (by decide)) ∧
            (r.2.disk false).entry (cstr "/mnt/hdd/f") = some (.file 0))) = true)) = true := by
    decide +kernel
  obtain ⟨c, hrun, hc⟩ := exists_run_of_any h
  obtain ⟨hz, hslot, hany⟩ := of_decide_eq_true hc
  obtain ⟨⟨ret, c'⟩, hcall, hret⟩ := (Option.any_eq_true _ _).mp hany
  obtain ⟨rfl, hgone, hdata⟩ := of_decide_eq_true hret
  refine ⟨c, c', hrun, ⟨_, hz, by decide, by decide⟩, ?_, hcall, hgone, 0, hdata⟩
  exact hslot ▸ Placed.evicted 0

end FusionFS
