import FusionFS.Disk

/-!
# The two places of a file

A file below the mount point has a place on the SSD and one on the HDD. Links run from the first to
the second only, so every call on either path stays within the two places of that file. Each call is
described by what it makes of them.
-/

namespace FusionFS

/-- The directory entries at the SSD path and at the HDD path of a file. -/
structure Slot where
  ssd : Option DirEntry
  hdd : Option DirEntry
  deriving DecidableEq

namespace Slot

/-- The file that opening the SSD path reaches. -/
def ino (s : Slot) : Option Nat :=
  match s.ssd with
  | some (.file i) => some i
  | some (.link _) => match s.hdd with
    | some (.file i) => some i
    | _ => none
  | none => none

/-- There is a regular file at one of the two places. -/
def Holds (s : Slot) : Prop := (∃ i, s.ssd = some (.file i)) ∨ ∃ i, s.hdd = some (.file i)

instance (s : Slot) : Decidable s.Holds := inferInstanceAs (Decidable (_ ∨ _))

/-- What moving the file to the HDD makes of its two places. -/
def evicted (target : Bytes) (isDir : Bool) (s : Slot) : Slot :=
  match s.ssd with
  | none => if isDir then s else { s with ssd := some (.link target) }
  | some (.file i) => ⟨some (.link target), some (.file i)⟩
  | some (.link _) => match s.hdd with
    | some (.file j) => ⟨some (.link target), some (.file j)⟩
    | _ => ⟨some (.link target), some (.link target)⟩

/-- What moving the file to the SSD makes of its two places. -/
def promoted (s : Slot) : Slot := ⟨s.hdd, none⟩

/-- A new file at the place the SSD path leads to. -/
def Grown (i : Nat) (s s' : Slot) : Prop :=
  (s.ssd = none ∧ s' = { s with ssd := some (.file i) }) ∨
    (∃ t, s.ssd = some (.link t)) ∧ s.hdd = none ∧ s' = { s with hdd := some (.file i) }

@[simp]
theorem holds_promoted_of_link {s : Slot} {t : Bytes} (h : s.ssd = some (.link t)) :
    s.promoted.Holds ↔ s.Holds := by
  simp [Holds, promoted, h]

theorem holds_evicted (target : Bytes) (isDir : Bool) (s : Slot) :
    (s.evicted target isDir).Holds ↔ s.Holds := by
  obtain ⟨ssd, hdd⟩ := s
  unfold evicted Holds
  cases ssd with
  | none => cases isDir <;> simp
  | some e =>
      cases e with
      | file i => simp
      | link t =>
          cases hdd with
          | none => simp
          | some e => cases e <;> simp

end Slot

variable {r : Root}

namespace Disk

/-- The places of every file of a disk. -/
def slot (r : Root) (d : Disk) (path : Bytes) : Slot :=
  ⟨d.entry (r.fullpath path), d.entry (r.hddpath path)⟩

/-- Links lead to the HDD place of their own file, and an SSD path is not a directory as well. -/
structure Sane (r : Root) (d : Disk) : Prop where
  ssd_link : ∀ path t, (d.slot r path).ssd = some (.link t) → t = r.hddpath path
  hdd_link : ∀ path t, (d.slot r path).hdd = some (.link t) → t = r.hddpath path
  ssd_dir : ∀ path, (d.slot r path).ssd ≠ none → d.dir (r.fullpath path) = false

section Entries

variable (d : Disk) (path : Bytes) (e : Option DirEntry)

@[simp]
theorem slot_setEntry_ssd : (d.setEntry (r.fullpath path) e).slot r
    = Function.update (d.slot r) path { d.slot r path with ssd := e } := by
  funext q
  have hq : r.hddpath q ≠ r.fullpath path := (r.fullpath_ne_hddpath path q).symm
  by_cases h : q = path
  · subst h
    simp [slot, setEntry, hq]
  · simp [slot, setEntry, hq, h]

@[simp]
theorem slot_setEntry_hdd : (d.setEntry (r.hddpath path) e).slot r
    = Function.update (d.slot r) path { d.slot r path with hdd := e } := by
  funext q
  have hq : r.fullpath q ≠ r.hddpath path := r.fullpath_ne_hddpath q path
  by_cases h : q = path
  · subst h
    simp [slot, setEntry, hq]
  · simp [slot, setEntry, hq, h]

@[simp]
theorem dir_setEntry (x : Bytes) : (d.setEntry x e).dir = d.dir := rfl

@[simp]
theorem data_setEntry (x : Bytes) : (d.setEntry x e).data = d.data := rfl

@[simp]
theorem nextIno_setEntry (x : Bytes) : (d.setEntry x e).nextIno = d.nextIno := rfl

@[simp]
theorem slot_setData (i : Nat) (content : Bytes) : (d.setData i content).slot r = d.slot r := rfl

@[simp]
theorem dir_setData (i : Nat) (content : Bytes) : (d.setData i content).dir = d.dir := rfl

@[simp]
theorem nextIno_setData (i : Nat) (content : Bytes) : (d.setData i content).nextIno = d.nextIno :=
  rfl

end Entries

variable {d : Disk}

theorem entry_fullpath (d : Disk) (path : Bytes) : d.entry (r.fullpath path) = (d.slot r path).ssd :=
  rfl

theorem entry_hddpath (d : Disk) (path : Bytes) : d.entry (r.hddpath path) = (d.slot r path).hdd := rfl

theorem resolve_loop {x : Bytes} (h : d.entry x = some (.link x)) (fuel : Nat) :
    d.resolve fuel x = none := by
  induction fuel with
  | zero => rfl
  | succ fuel ih => simp only [resolve, h, ih]

theorem resolve_file {x : Bytes} {i : Nat} (h : d.entry x = some (.file i)) :
    d.resolve maxSymlinks x = some x := by
  rw [show maxSymlinks = 39 + 1 from rfl, resolve, h]

theorem openIno_file {x : Bytes} {i : Nat} (h : d.entry x = some (.file i)) :
    d.openIno x = some i := by
  simp [openIno, resolve_file h, h]

theorem access_file {x : Bytes} {i : Nat} (h : d.entry x = some (.file i)) : d.access x = true := by
  simp [access, resolve_file h, h]

/-- An SSD path leads to itself or over one link to the HDD path. -/
theorem Sane.resolve_fullpath (h : d.Sane r) (path : Bytes) :
    d.resolve maxSymlinks (r.fullpath path) =
      match (d.slot r path).ssd with
      | some (.link _) => match (d.slot r path).hdd with
        | some (.link _) => none
        | _ => some (r.hddpath path)
      | _ => some (r.fullpath path) := by
  rw [show maxSymlinks = 38 + 1 + 1 from rfl, resolve, entry_fullpath]
  cases hssd : (d.slot r path).ssd with
  | none => rfl
  | some e =>
      cases e with
      | file i => rfl
      | link t =>
          cases h.ssd_link path t hssd
          cases hhdd : (d.slot r path).hdd with
          | none => simp only [resolve, entry_hddpath, hhdd]
          | some e =>
              cases e with
              | file i => simp only [resolve, entry_hddpath, hhdd]
              | link u =>
                  cases h.hdd_link path u hhdd
                  exact resolve_loop hhdd _

theorem Sane.openIno_fullpath (h : d.Sane r) (path : Bytes) :
    d.openIno (r.fullpath path) = (d.slot r path).ino := by
  rw [openIno, h.resolve_fullpath, Slot.ino]
  cases hssd : (d.slot r path).ssd with
  | none => simp [entry_fullpath, hssd]
  | some e =>
      cases e with
      | file i => simp [entry_fullpath, hssd]
      | link t =>
          cases hhdd : (d.slot r path).hdd with
          | none => simp [entry_hddpath, hhdd]
          | some e => cases e <;> simp [entry_hddpath, hhdd]

/-- A file at the HDD path, or nothing: a link there leads to itself. -/
theorem Sane.openIno_hddpath (h : d.Sane r) (path : Bytes) :
    d.openIno (r.hddpath path) = match (d.slot r path).hdd with
      | some (.file i) => some i
      | _ => none := by
  cases hhdd : (d.slot r path).hdd with
  | none =>
      have hreal : d.resolve maxSymlinks (r.hddpath path) = some (r.hddpath path) := by
        rw [show maxSymlinks = 39 + 1 from rfl, resolve, entry_hddpath, hhdd]
      simp [openIno, hreal, entry_hddpath, hhdd]
  | some e =>
      cases e with
      | file i => exact openIno_file hhdd
      | link u =>
          cases h.hdd_link path u hhdd
          simp [openIno, resolve_loop hhdd]

/-- The same disk as far as its directory entries go, but for the places of one file. -/
structure Moved (r : Root) (d d' : Disk) (path : Bytes) (s : Slot) : Prop where
  slot : d'.slot r = Function.update (d.slot r) path s
  dir : d'.dir = d.dir
  data : d'.data = d.data
  nextIno : d'.nextIno = d.nextIno

theorem moved_setEntry_ssd (d : Disk) (path : Bytes) (e : Option DirEntry) :
    Moved r d (d.setEntry (r.fullpath path) e) path { d.slot r path with ssd := e } :=
  ⟨slot_setEntry_ssd d path e, rfl, rfl, rfl⟩

theorem moved_setEntry_hdd (d : Disk) (path : Bytes) (e : Option DirEntry) :
    Moved r d (d.setEntry (r.hddpath path) e) path { d.slot r path with hdd := e } :=
  ⟨slot_setEntry_hdd d path e, rfl, rfl, rfl⟩

theorem Moved.refl (d : Disk) (path : Bytes) : Moved r d d path (d.slot r path) :=
  ⟨(Function.update_eq_self _ _).symm, rfl, rfl, rfl⟩

theorem Moved.trans {d' d'' : Disk} {path : Bytes} {s s' : Slot} (h : Moved r d d' path s)
    (h' : Moved r d' d'' path s') : Moved r d d'' path s' :=
  ⟨by rw [h'.slot, h.slot, Function.update_idem], h'.dir.trans h.dir, h'.data.trans h.data,
    h'.nextIno.trans h.nextIno⟩

theorem Moved.at (h : Moved r d d' path s) : d'.slot r path = s := by
  rw [h.slot, Function.update_self]

theorem Moved.elsewhere (h : Moved r d d' path s) {q : Bytes} (hq : q ≠ path) :
    d'.slot r q = d.slot r q := by
  rw [h.slot, Function.update_of_ne hq]

theorem moved_rename_to_hdd (d : Disk) (path : Bytes) :
    Moved r d (d.rename (r.fullpath path) (r.hddpath path)) path ⟨none, (d.slot r path).ssd⟩ := by
  have h₁ := moved_setEntry_hdd (r := r) d path (d.entry (r.fullpath path))
  have h₂ := moved_setEntry_ssd (r := r) (d.setEntry (r.hddpath path) (d.entry (r.fullpath path)))
    path none
  rw [h₁.at] at h₂
  exact h₁.trans h₂

theorem moved_rename_to_ssd (d : Disk) (path : Bytes) :
    Moved r d (d.rename (r.hddpath path) (r.fullpath path)) path ⟨(d.slot r path).hdd, none⟩ := by
  have h₁ := moved_setEntry_ssd (r := r) d path (d.entry (r.hddpath path))
  have h₂ := moved_setEntry_hdd (r := r) (d.setEntry (r.fullpath path) (d.entry (r.hddpath path)))
    path none
  rw [h₁.at] at h₂
  exact h₁.trans h₂

theorem moved_symlink (d : Disk) (path : Bytes) : Moved r d (d.symlink (r.hddpath path) (r.fullpath path))
    path (if (d.slot r path).ssd = none ∧ d.dir (r.fullpath path) = false
      then { d.slot r path with ssd := some (.link (r.hddpath path)) } else d.slot r path) := by
  unfold symlink lstat
  rw [entry_fullpath]
  cases hssd : (d.slot r path).ssd with
  | some e => simpa using Moved.refl (r := r) d path
  | none =>
      cases hdir : d.dir (r.fullpath path) with
      | true => simpa using Moved.refl (r := r) d path
      | false =>
          simpa using moved_setEntry_ssd (r := r) d path (some (.link (r.hddpath path)))

/-- `mv` takes the SSD entry to the HDD path unless it is a link and the file is there already. -/
theorem Sane.moved_mv (h : d.Sane r) (path : Bytes) :
    Moved r d (d.mv (r.fullpath path) (r.hddpath path)) path
      (match (d.slot r path).ssd, (d.slot r path).hdd with
        | none, _ => d.slot r path
        | some (.link _), some (.file _) => d.slot r path
        | some e, _ => ⟨none, some e⟩) := by
  have hino := h.openIno_fullpath path
  have hrename := moved_rename_to_hdd (r := r) d path
  have hrefl := Moved.refl (r := r) d path
  rw [Slot.ino] at hino
  unfold mv
  rw [entry_fullpath, entry_hddpath]
  cases hssd : (d.slot r path).ssd with
  | none => exact hrefl
  | some e =>
      rw [hssd] at hrename hino
      cases e with
      | file i => exact hrename
      | link t =>
          cases hhdd : (d.slot r path).hdd with
          | none => exact hrename
          | some e =>
              rw [hhdd] at hino
              cases e with
              | file j =>
                  simp only [hino, if_true]
                  exact hrefl
              | link u => exact hrename

theorem Sane.moved_moveFileSsd (h : d.Sane r) (path : Bytes) :
    Moved r d (moveFileSsd d (r.fullpath path)) path
      ((d.slot r path).evicted (r.hddpath path) (d.dir (r.fullpath path))) := by
  rw [moveFileSsd, r.getHddPath_fullpath]
  have hmv := h.moved_mv path
  have hlink := hmv.trans (moved_symlink _ path)
  have hdir := h.ssd_dir path
  have htarget := h.ssd_link path
  rw [hmv.at, hmv.dir] at hlink
  convert hlink using 1
  generalize d.slot r path = s at hdir htarget ⊢
  obtain ⟨ssd, hdd⟩ := s
  cases ssd with
  | none => cases hd : d.dir (r.fullpath path) <;> simp [Slot.evicted]
  | some e =>
      have hd : d.dir (r.fullpath path) = false := hdir (by simp)
      cases e with
      | file i => simp [Slot.evicted, hd]
      | link t =>
          cases htarget t rfl
          cases hdd with
          | none => simp [Slot.evicted, hd]
          | some e => cases e <;> simp [Slot.evicted, hd]

theorem moved_moveFileHdd (d : Disk) (path : Bytes) :
    Moved r d (moveFileHdd d (r.fullpath path)) path (d.slot r path).promoted := by
  rw [moveFileHdd, r.getHddPath_fullpath]
  have hrm : Moved r d (d.unlink (r.fullpath path)) path { d.slot r path with ssd := none } :=
    moved_setEntry_ssd d path none
  have hmv : Moved r (d.unlink (r.fullpath path))
      ((d.unlink (r.fullpath path)).mv (r.hddpath path) (r.fullpath path)) path
      (d.slot r path).promoted := by
    have hrename := moved_rename_to_ssd (r := r) (d.unlink (r.fullpath path)) path
    have hrefl := Moved.refl (r := r) (d.unlink (r.fullpath path)) path
    rw [hrm.at] at hrename hrefl
    unfold mv
    rw [entry_fullpath, entry_hddpath, hrm.at]
    unfold Slot.promoted
    cases hhdd : (d.slot r path).hdd with
    | none => simpa [hhdd] using hrefl
    | some e =>
        rw [hhdd] at hrename
        cases e <;> exact hrename
  exact hrm.trans hmv

theorem Sane.of_update (h : d.Sane r) {d' : Disk} {path : Bytes} {s : Slot}
    (hslot : d'.slot r = Function.update (d.slot r) path s) (hdir : d'.dir = d.dir)
    (hssd : ∀ t, s.ssd = some (.link t) → t = r.hddpath path)
    (hhdd : ∀ t, s.hdd = some (.link t) → t = r.hddpath path)
    (hd : s.ssd ≠ none → d.dir (r.fullpath path) = false) : d'.Sane r := by
  refine ⟨?_, ?_, ?_⟩
  all_goals
    intro q
    rw [hslot]
    by_cases hq : q = path
    · subst hq
      rw [Function.update_self]
      first | exact hssd | exact hhdd | (rw [hdir]; exact hd)
    · rw [Function.update_of_ne hq]
      first | exact h.ssd_link q | exact h.hdd_link q | (rw [hdir]; exact h.ssd_dir q)

theorem Sane.moveFileSsd (h : d.Sane r) (path : Bytes) :
    (moveFileSsd d (r.fullpath path)).Sane r := by
  have hm := h.moved_moveFileSsd path
  have hssd := h.ssd_link path
  have hhdd := h.hdd_link path
  have hdir := h.ssd_dir path
  generalize d.slot r path = s at hm hssd hhdd hdir
  obtain ⟨ssd, hdd⟩ := s
  refine h.of_update hm.slot hm.dir ?_ ?_ ?_
  all_goals
    cases ssd with
    | none => cases hd : d.dir (r.fullpath path) <;> simp_all [Slot.evicted]
    | some e =>
        cases e with
        | file i => simp_all [Slot.evicted]
        | link t =>
            cases hdd with
            | none => simp_all [Slot.evicted]
            | some e => cases e <;> simp_all [Slot.evicted]

theorem Sane.moveFileHdd (h : d.Sane r) {path : Bytes} (hssd : (d.slot r path).ssd ≠ none) :
    (moveFileHdd d (r.fullpath path)).Sane r := by
  have hm := moved_moveFileHdd (r := r) d path
  refine h.of_update hm.slot hm.dir (fun t ht => h.hdd_link path t ht) (fun t ht => ?_)
    fun _ => h.ssd_dir path hssd
  cases ht

theorem Sane.unlink_ssd (h : d.Sane r) (path : Bytes) : (d.unlink (r.fullpath path)).Sane r := by
  have hm := moved_setEntry_ssd (r := r) d path none
  refine h.of_update hm.slot hm.dir (fun t ht => ?_) (fun t ht => h.hdd_link path t ht)
    fun hne => absurd rfl hne
  cases ht

theorem Sane.unlink_hdd (h : d.Sane r) (path : Bytes) : (d.unlink (r.hddpath path)).Sane r := by
  have hm := moved_setEntry_hdd (r := r) d path none
  refine h.of_update hm.slot hm.dir (fun t ht => h.ssd_link path t ht) (fun t ht => ?_)
    (h.ssd_dir path)
  cases ht

theorem Sane.mkdir (h : d.Sane r) (path : Bytes) : (d.mkdir (r.fullpath path)).Sane r := by
  unfold Disk.mkdir lstat
  rw [entry_fullpath]
  split
  · exact h
  · rename_i hnot
    refine ⟨h.ssd_link, h.hdd_link, fun q hq => ?_⟩
    by_cases heq : q = path
    · subst heq
      have hq' : (d.slot r q).ssd ≠ none := hq
      simp [Option.isSome_iff_ne_none, hq'] at hnot
    · have hne : r.fullpath q ≠ r.fullpath path := fun hf => heq (r.fullpath_inj.mp hf)
      have hd := h.ssd_dir q hq
      simpa [Function.update_of_ne hne] using hd

@[simp]
theorem slot_mkdir (d : Disk) (path : Bytes) : (d.mkdir path).slot r = d.slot r := by
  unfold mkdir
  split <;> rfl

/-! ### Creating and writing files -/

/-- The file `i` has the contents `content`: it was there at `path` before, or it is new. -/
structure Written (r : Root) (d d' : Disk) (path : Bytes) (i : Nat) (content : Bytes) : Prop where
  slot : ∃ s, d'.slot r = Function.update (d.slot r) path s ∧ s.ino = some i ∧
    ((s = d.slot r path ∧ d'.nextIno = d.nextIno) ∨
      ((d.slot r path).Grown i s ∧ i = d.nextIno ∧ d'.nextIno = d.nextIno + 1 ∧
        ((d.slot r path).ssd = none → d.dir (r.fullpath path) = false)))
  dir : d'.dir = d.dir
  data : d'.data = Function.update d.data i content

theorem Written.at (h : Written r d d' path i content) : (d'.slot r path).ino = some i := by
  obtain ⟨s, hslot, hino, -⟩ := h.slot
  rwa [hslot, Function.update_self]

theorem Written.elsewhere (h : Written r d d' path i content) {q : Bytes} (hq : q ≠ path) :
    d'.slot r q = d.slot r q := by
  obtain ⟨s, hslot, -⟩ := h.slot
  rw [hslot, Function.update_of_ne hq]

/-- Writing keeps what there is of the file, or adds it. -/
theorem Written.grown (h : Written r d d' path i content) :
    d'.slot r path = d.slot r path ∨ (d.slot r path).Grown i (d'.slot r path) := by
  obtain ⟨s, hslot, -, hplace⟩ := h.slot
  rw [hslot, Function.update_self]
  exact hplace.imp And.left And.left

theorem Written.of_absent (h : Written r d d' path i content)
    (habsent : d.slot r path = ⟨none, none⟩) : d'.slot r path = ⟨some (.file i), none⟩ ∧
      i = d.nextIno ∧ d'.nextIno = d.nextIno + 1 := by
  obtain ⟨s, hslot, hino, hplace⟩ := h.slot
  rw [hslot, Function.update_self]
  rw [habsent] at hplace
  rcases hplace with ⟨rfl, -⟩ | ⟨⟨-, rfl⟩ | ⟨⟨t, ht⟩, -⟩, hi, hnext, -⟩
  · cases hino
  · exact ⟨rfl, hi, hnext⟩
  · cases ht

theorem Written.sane (h : Written r d d' path i content) (hs : d.Sane r) : d'.Sane r := by
  obtain ⟨s, hslot, -, hplace⟩ := h.slot
  rcases hplace with ⟨rfl, -⟩ | ⟨hgrown, -, -, hnodir⟩
  · exact hs.of_update hslot h.dir (hs.ssd_link path) (hs.hdd_link path) (hs.ssd_dir path)
  · rcases hgrown with ⟨hnone, rfl⟩ | ⟨⟨t, ht⟩, -, rfl⟩
    · exact hs.of_update hslot h.dir (fun t ht => by cases ht) (hs.hdd_link path)
        fun _ => hnodir hnone
    · refine hs.of_update hslot h.dir (hs.ssd_link path) (fun t ht => by cases ht) fun _ => ?_
      exact hs.ssd_dir path (by rw [ht]; simp)

theorem slot_newFile_ssd (d : Disk) (path : Bytes) : (d.newFile (r.fullpath path)).slot r
    = Function.update (d.slot r) path { d.slot r path with ssd := some (.file d.nextIno) } :=
  slot_setEntry_ssd d path _

theorem slot_newFile_hdd (d : Disk) (path : Bytes) : (d.newFile (r.hddpath path)).slot r
    = Function.update (d.slot r) path { d.slot r path with hdd := some (.file d.nextIno) } :=
  slot_setEntry_hdd d path _

theorem written_setData (d : Disk) (path content : Bytes) {i : Nat}
    (hi : (d.slot r path).ino = some i) : Written r d (d.setData i content) path i content :=
  ⟨⟨d.slot r path, (Function.update_eq_self _ _).symm, hi, Or.inl ⟨rfl, rfl⟩⟩, rfl, rfl⟩

theorem Sane.written_creat (h : d.Sane r) {path : Bytes} {i : Nat} {d' : Disk}
    (hc : d.creat (r.fullpath path) = some (i, d')) : Written r d d' path i [] := by
  have hino := h.openIno_fullpath path
  rw [creat, h.resolve_fullpath] at hc
  cases hssd : (d.slot r path).ssd with
  | none =>
      simp only [hssd, Option.bind_eq_bind, Option.bind_some, entry_fullpath] at hc
      split at hc
      · cases hc
      · rename_i hdir
        obtain ⟨rfl, rfl⟩ := Prod.mk.inj (Option.some.inj hc)
        refine ⟨⟨_, slot_newFile_ssd d path, rfl, Or.inr ⟨Or.inl ⟨hssd, rfl⟩, rfl, rfl, fun _ => ?_⟩⟩,
          rfl, rfl⟩
        simpa using hdir
  | some e =>
      cases e with
      | file j =>
          simp only [hssd, Option.bind_eq_bind, Option.bind_some, entry_fullpath] at hc
          obtain ⟨rfl, rfl⟩ := Prod.mk.inj (Option.some.inj hc)
          exact written_setData d path [] (by simp [Slot.ino, hssd])
      | link t =>
          cases hhdd : (d.slot r path).hdd with
          | none =>
              simp only [hssd, hhdd, Option.bind_eq_bind, Option.bind_some, entry_hddpath] at hc
              split at hc
              · cases hc
              · obtain ⟨rfl, rfl⟩ := Prod.mk.inj (Option.some.inj hc)
                refine ⟨⟨_, slot_newFile_hdd d path, ?_,
                  Or.inr ⟨Or.inr ⟨⟨t, hssd⟩, hhdd, rfl⟩, rfl, rfl, fun hnone => ?_⟩⟩, rfl, rfl⟩
                · simp [Slot.ino, hssd]
                · rw [hssd] at hnone
                  cases hnone
          | some e =>
              cases e with
              | file j =>
                  simp only [hssd, hhdd, Option.bind_eq_bind, Option.bind_some, entry_hddpath] at hc
                  obtain ⟨rfl, rfl⟩ := Prod.mk.inj (Option.some.inj hc)
                  exact written_setData d path [] (by simp [Slot.ino, hssd, hhdd])
              | link u =>
                  simp only [hssd, hhdd, Option.bind_eq_bind, Option.bind_none] at hc
                  cases hc

/-- Writing through a stream does nothing, or leaves the file there with the written contents. -/
theorem Sane.written_store (h : d.Sane r) (path content : Bytes) :
    d.store (r.fullpath path) content = d ∨
      ∃ i, Written r d (d.store (r.fullpath path) content) path i content := by
  unfold store
  cases hc : d.creat (r.fullpath path) with
  | none => exact Or.inl rfl
  | some res =>
      obtain ⟨i, d'⟩ := res
      have hw := h.written_creat hc
      refine Or.inr ⟨i, ⟨hw.slot, hw.dir, ?_⟩⟩
      change Function.update d'.data i content = _
      rw [hw.data, Function.update_idem]

theorem Sane.creat_of_ino (h : d.Sane r) {path : Bytes} {i : Nat}
    (hi : (d.slot r path).ino = some i) : d.creat (r.fullpath path) = some (i, d.setData i []) := by
  have hopen := h.openIno_fullpath path
  rw [hi, openIno, Option.bind_eq_bind, Option.bind_eq_some_iff] at hopen
  obtain ⟨real, hreal, hentry⟩ := hopen
  cases he : d.entry real with
  | none => simp [he] at hentry
  | some e =>
      cases e with
      | file j =>
          simp only [he, Option.some.injEq] at hentry
          simp [creat, hreal, he, hentry]
      | link t => simp [he] at hentry

theorem Sane.store_of_ino (h : d.Sane r) {path : Bytes} {i : Nat}
    (hi : (d.slot r path).ino = some i) (content : Bytes) :
    d.store (r.fullpath path) content = d.setData i content := by
  rw [store, h.creat_of_ino hi]
  simp [setData]

theorem Sane.access_of_ino (h : d.Sane r) {path : Bytes} {i : Nat}
    (hi : (d.slot r path).ino = some i) : d.access (r.fullpath path) = true := by
  rw [access, h.resolve_fullpath]
  unfold Slot.ino at hi
  cases hssd : (d.slot r path).ssd with
  | none => simp [hssd] at hi
  | some e =>
      cases e with
      | file j => simp [entry_fullpath, hssd]
      | link t =>
          cases hhdd : (d.slot r path).hdd with
          | none => simp [hssd, hhdd] at hi
          | some e => cases e <;> simp_all [entry_hddpath]

end Disk

theorem link_of_isSymlinkSsd {d : Disk} {p : Bytes}
    (hs : isSymlinkSsd d (r.fullpath p) = true) : ∃ t, (d.slot r p).ssd = some (.link t) := by
  rw [isSymlinkSsd, Disk.entry_fullpath] at hs
  cases hssd : (d.slot r p).ssd with
  | none => simp [hssd] at hs
  | some e =>
      cases e with
      | file i => simp [hssd] at hs
      | link t => exact ⟨t, rfl⟩

end FusionFS
