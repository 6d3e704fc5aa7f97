import FusionFS.ClockRun
import FusionFS.DiskSlots
import FusionFS.TierPaths

/-!
# Renaming

`fusion_rename` on one node, with what it makes of the two tiers and of the clock queue.
-/

namespace FusionFS

open ClockState Disk SecondChance

variable {A : Type} [DecidableEq A]

namespace Disk

variable (d : Disk)

/-- What a path at or below a directory has behind the directory. -/
def below (dir x : Bytes) : Option Bytes :=
  if x = dir ∨ dir ++ [slash] <+: x then some (x.drop dir.length) else none

/-- Where the path `x` was before the directory `src` became `dst`. -/
def origin (src dst x : Bytes) : Option Bytes :=
  match below dst x with
  | some rest => some (src ++ rest)
  | none => if (below src x).isSome then none else some x

/-- A directory takes everything below it along. -/
def renameDir (src dst : Bytes) : Disk :=
  { d with
    entry := fun x => (origin src dst x).bind d.entry
    dir := fun x => ((origin src dst x).map d.dir).getD false }

def enoent : Nat := 2

def enotdir : Nat := 20

def eisdir : Nat := 21

def einval : Nat := 22

def enotempty : Nat := 39

/-- The call `rename`, with its error, 0 for none. It does nothing to two names of one file, and puts
a directory in the place of an empty one only; `vacant` tells which directories are empty. -/
def renameCall (vacant : Bytes → Bool) (src dst : Bytes) : Disk × Nat :=
  match d.entry src with
  | some (.file i) =>
      if d.dir dst then (d, eisdir)
      else if d.entry dst = some (.file i) then (d, 0)
      else (d.rename src dst, 0)
  | some (.link _) =>
      if d.dir dst then (d, eisdir)
      else if src = dst then (d, 0)
      else (d.rename src dst, 0)
  | none =>
      if d.dir src = false then (d, enoent)
      else if (d.entry dst).isSome then (d, enotdir)
      else if src = dst then (d, 0)
      else if (below src dst).isSome then (d, einval)
      else if d.dir dst && !vacant dst then (d, enotempty)
      else (d.renameDir src dst, 0)

end Disk

/-- `strcpy` to the name of a cell. -/
def ClockState.setFname (s : ClockState A) (a : A) (fname : Bytes) : Option (ClockState A) := do
  let fname ← strcpy nameMax fname
  s.modify a fun i => { i with fname := fname }

/-- The update of the queue. The pointer `findelem_clock` returns is followed in any case. -/
def renameElem (fuel : Nat) (fpath fnewpath : Bytes) (s : ClockState A) : Option (ClockState A) := do
  let found ← findelemClock fuel s fpath
  let inode ← found
  s.setFname inode fnewpath

/-- The update of the HDD file and of the link to it. What the calls return is overwritten. -/
def relink (vacant : Bytes → Bool) (fpath fnewpath : Bytes) (d : Disk) : Disk :=
  let (d, _) := d.renameCall vacant (getHddPath fpath) (getHddPath fnewpath)
  let d := d.unlink fnewpath
  d.symlink (getHddPath fnewpath) fnewpath

/-- `fusion_rename`, with the clock as the cache's mode. -/
def fusionRename (vacant : Bytes → Bool) (fuel : Nat) (r : Root) (path newpath : Bytes) (d : Disk)
    (s : ClockState A) : Option (Int × Disk × ClockState A) := do
  let fpath := r.fullpath path
  let fnewpath := r.fullpath newpath
  let (d, s) ←
    if isSymlinkSsd d fpath then some (relink vacant fpath fnewpath d, s)
    else (renameElem fuel fpath fnewpath s).map fun s => (d, s)
  -- the last call runs in all cases
  let (d, errno) := d.renameCall vacant fpath fnewpath
  some (-(errno : Int), d, s)

/-! ### What it should do -/

/-- Where a path stands on a node. -/
inductive Placement where
  | regular
  | evicted
  | directory
  | absent
  deriving DecidableEq

/-- A regular SSD file is queued and has no HDD counterpart; an evicted one is a link to its HDD
counterpart. -/
def PlacedAt (r : Root) (d : Disk) (view : Queue Bytes) (path : Bytes) : Placement → Prop
  | .regular => (∃ i, d.slot r path = ⟨some (.file i), none⟩) ∧ d.dir (r.fullpath path) = false ∧
      d.dir (r.hddpath path) = false ∧ r.fullpath path ∈ names view
  | .evicted => (∃ i, d.slot r path = ⟨some (.link (r.hddpath path)), some (.file i)⟩) ∧
      d.dir (r.fullpath path) = false ∧ d.dir (r.hddpath path) = false ∧ r.fullpath path ∉ names view
  | .directory => d.slot r path = ⟨none, none⟩ ∧ d.dir (r.fullpath path) = true ∧
      r.fullpath path ∉ names view
  | .absent => d.slot r path = ⟨none, none⟩ ∧ d.dir (r.fullpath path) = false ∧
      r.fullpath path ∉ names view

/-- Tiers and queue after `path` became `newpath`. -/
structure Renamed (r : Root) (d d' : Disk) (view : Queue Bytes) (path newpath : Bytes) : Prop where
  gone : d'.lstat (r.fullpath path) = false ∧ d'.lstat (r.hddpath path) = false
  content : (d'.openIno (r.fullpath newpath)).map d'.data = (d.openIno (r.fullpath path)).map d.data
  tree : d.dir (r.fullpath path) = true → ∀ rest,
    d'.entry (r.fullpath newpath ++ slash :: rest) = d.entry (r.fullpath path ++ slash :: rest) ∧
      d'.dir (r.fullpath newpath ++ slash :: rest) = d.dir (r.fullpath path ++ slash :: rest)
  linked : ∀ target, d'.entry (r.fullpath newpath) = some (.link target) →
    target = r.hddpath newpath ∧ ∃ i, d'.entry target = some (.file i)
  queued : (∃ i, d'.entry (r.fullpath newpath) = some (.file i)) →
    (names view).count (r.fullpath newpath) = 1
  unqueued : r.fullpath path ∉ names view
  distinct : (names view).Nodup

/-- The call follows no `NULL`, and when it returns 0 the file is renamed in the tiers and in the
queue. -/
def RenameKeeps (vacant : Bytes → Bool) (fuel : Nat) (r : Root) (path newpath : Bytes) (d : Disk)
    (s : ClockState A) : Prop :=
  ∃ ret d' s', fusionRename vacant fuel r path newpath d s = some (ret, d', s') ∧
    (ret = 0 → ∃ p q view, Represents s' p q view ∧ Renamed r d d' view path newpath)

/-! ### The queue -/

section Queue

variable {s s' : ClockState A} {p q : List A} {view : Queue Bytes} {fuel : Nat} {a : A}
  {fpath fnewpath : Bytes}

theorem setFname_spec {bit : Bool} (h : s.content a = some (fpath, bit))
    (hfits : fnewpath.length < nameMax) :
    ∃ s', s.setFname a fnewpath = some s' ∧ s'.links = s.links ∧
      s'.content = Function.update s.content a (some (fnewpath, bit)) ∧
      s'.clockHead = s.clockHead ∧ s'.clockTail = s.clockTail ∧ s'.victim = s.victim := by
  obtain ⟨i, hi, hcell⟩ := Option.map_eq_some_iff.mp h
  obtain ⟨-, hbit⟩ := Prod.mk.inj hcell
  have hset : s.setFname a fnewpath =
      some { s with heap := Function.update s.heap a (some { i with fname := fnewpath }) } := by
    rw [ClockState.setFname, strcpy_of_lt hfits]
    exact modify_of_live hi _
  refine ⟨_, hset, congrArg₂ Ring.Links.mk ?_ ?_, ?_, rfl, rfl, rfl⟩
  · ext1 x
    by_cases hx : x = a
    · subst hx
      simp [hi]
    · simp [hx]
  · ext1 x
    by_cases hx : x = a
    · subst hx
      simp [hi]
    · simp [hx]
  · ext1 x
    by_cases hx : x = a
    · subst hx
      simp [content, hbit]
    · simp [content, hx]

theorem findelem_cases (h : Represents s p q view) (hfuel : view.length ≤ fuel) (fpath : Bytes) :
    (fpath ∉ names view ∧ findelemClock fuel s fpath = some none) ∨
      ∃ a bit, findelemClock fuel s fpath = some (some a) ∧ a ∈ p ++ q ∧
        s.content a = some (fpath, bit) := by
  have hfind := h.ring.findelemClock_eq (h.length_eq ▸ hfuel) fpath
  cases hcell : (p ++ q).find? (named s fpath) with
  | none =>
      rw [hcell] at hfind
      exact .inl ⟨h.not_mem_names_of_find hcell, hfind⟩
  | some a =>
      rw [hcell] at hfind
      have ha : a ∈ p ++ q := List.mem_of_find?_eq_some hcell
      obtain ⟨bit, hbit⟩ := h.content_of_named ha (List.find?_some hcell)
      exact .inr ⟨a, bit, hfind, ha, hbit⟩

omit [DecidableEq A] in
theorem mem_names_of_content (h : Represents s p q view) {bit : Bool} (ha : a ∈ p ++ q)
    (hcell : s.content a = some (fpath, bit)) : fpath ∈ names view := by
  apply (h.mem_names_iff fpath).mpr
  refine ⟨a, ?_, ?_⟩
  · rwa [List.mem_append, or_comm, ← List.mem_append]
  · simp [named, hcell]

theorem renameElem_of_notMem (h : Represents s p q view) (hfuel : view.length ≤ fuel)
    (hout : fpath ∉ names view) : renameElem fuel fpath fnewpath s = none := by
  obtain ⟨-, hfind⟩ | ⟨a, bit, -, ha, hcell⟩ := findelem_cases h hfuel fpath
  · simp [renameElem, hfind]
  · exact absurd (mem_names_of_content h ha hcell) hout

theorem renameElem_of_long (hlong : nameMax ≤ fnewpath.length) :
    renameElem fuel fpath fnewpath s = none := by
  have hcopy : strcpy nameMax fnewpath = none := if_neg (Nat.not_lt.mpr hlong)
  unfold renameElem
  cases findelemClock fuel s fpath with
  | none => rfl
  | some found =>
      cases found with
      | none => rfl
      | some a => simp [ClockState.setFname, hcopy]

/-- The name in the one cell that carries the old one is overwritten. -/
theorem renameElem_of_mem (h : Represents s p q view) (hfuel : view.length ≤ fuel)
    (hin : fpath ∈ names view) (hfits : fnewpath.length < nameMax) :
    ∃ s' a bit, renameElem fuel fpath fnewpath s = some s' ∧ a ∈ p ++ q ∧
      s.content a = some (fpath, bit) ∧ s'.links = s.links ∧
      s'.content = Function.update s.content a (some (fnewpath, bit)) ∧
      s'.clockHead = s.clockHead ∧ s'.clockTail = s.clockTail ∧ s'.victim = s.victim := by
  obtain ⟨hout, -⟩ | ⟨a, bit, hfind, ha, hcell⟩ := findelem_cases h hfuel fpath
  · exact absurd hin hout
  · obtain ⟨s', hs', hspec⟩ := setFname_spec hcell hfits
    exact ⟨s', a, bit, by simp [renameElem, hfind, hs'], ha, hcell, hspec⟩

/-- A new name gives a queue in which it stands for the old one. -/
theorem renameElem_fresh (h : Represents s p q view) (hfuel : view.length ≤ fuel)
    (hin : fpath ∈ names view) (hfits : fnewpath.length < nameMax) (hout : fnewpath ∉ names view) :
    ∃ s', renameElem fuel fpath fnewpath s = some s' ∧
      Represents s' p q (SecondChance.rename fpath fnewpath view) := by
  obtain ⟨s', a, bit, hs', ha, hcell, hlinks, hcontent, hhead, htail, hvictim⟩ :=
    renameElem_of_mem h hfuel hin hfits
  refine ⟨s', hs', h.recolor ha hlinks hcontent hhead htail, ?_, ?_, nodup_names_rename h.distinct hout⟩
  · rcases h.hand with ⟨hv, hp⟩ | ⟨v, w, hq, hv⟩
    · exact .inl ⟨hvictim.trans hv, hp⟩
    · exact .inr ⟨v, w, hq, hvictim.trans hv⟩
  · have hview : (SecondChance.rename fpath fnewpath view).map some =
        ((q ++ p).map s.content).map (Option.map (renameEntry fpath fnewpath)) := by
      rw [SecondChance.rename, h.reading, List.map_map, List.map_map]
      rfl
    rw [hview, List.map_map, hcontent]
    refine List.map_congr_left fun b hb => ?_
    by_cases hba : b = a
    · subst hba
      simp [hcell, renameEntry]
    · rw [Function.update_of_ne hba, Function.comp_apply]
      cases hcb : s.content b with
      | none => rfl
      | some e =>
          have ha' : a ∈ q ++ p := by rwa [List.mem_append, or_comm, ← List.mem_append]
          have hne : e.1 ≠ fpath := by
            intro heq
            have hnb : named s fpath b := by simp [named, hcb, heq]
            have hna : named s fpath a := by simp [named, hcell]
            exact hba (h.eq_of_named hb ha' hnb hna)
          simp [renameEntry, hne]

/-- A name that is in the queue already gets a second cell, and the ring is no queue any more. -/
theorem not_represents_of_renameElem (h : Represents s p q view) (hfuel : view.length ≤ fuel)
    (hne : fpath ≠ fnewpath) (hin : fpath ∈ names view) (htwice : fnewpath ∈ names view)
    (hs' : renameElem fuel fpath fnewpath s = some s') {p' q' : List A} {view' : Queue Bytes} :
    ¬ Represents s' p' q' view' := by
  intro h'
  have hfits : fnewpath.length < nameMax := by
    by_contra hlong
    rw [renameElem_of_long (Nat.not_lt.mp hlong)] at hs'
    cases hs'
  obtain ⟨s'', a, bit, hs'', ha, hcell, -, hcontent, -, -, -⟩ := renameElem_of_mem h hfuel hin hfits
  obtain rfl := Option.some.inj (hs'.symm.trans hs'')
  obtain ⟨b, hb, hnamed⟩ := (h.mem_names_iff fnewpath).mp htwice
  have hba : b ≠ a := by
    rintro rfl
    have : fpath = fnewpath := by simpa [named, hcell] using hnamed
    exact hne this
  have hlive : ∀ c, (s'.content c).isSome → c ∈ q' ++ p' := by
    intro c hc
    rw [List.mem_append, or_comm, ← List.mem_append]
    exact (h'.ring.live c).mp hc
  have hb' : named s' fnewpath b := by
    rw [named, hcontent, Function.update_of_ne hba]
    exact hnamed
  have ha' : named s' fnewpath a := by
    simp [named, hcontent]
  have hbl : (s'.content b).isSome := by
    rw [named, decide_eq_true_eq] at hb'
    obtain ⟨e, he, -⟩ := Option.map_eq_some_iff.mp hb'
    rw [he]
    rfl
  have hal : (s'.content a).isSome := by
    rw [hcontent, Function.update_self]
    rfl
  exact hba (h'.eq_of_named (hlive b hbl) (hlive a hal) hb' ha')

end Queue

/-! ### The disk -/

section Tiers

variable {r : Root} {d : Disk} {view : Queue Bytes} {path newpath : Bytes} {src dst : Bytes}
  {vacant : Bytes → Bool}

theorem lstat_eq_false_iff {x : Bytes} :
    d.lstat x = false ↔ d.entry x = none ∧ d.dir x = false := by
  simp [Disk.lstat]

theorem renameCall_of_entry {e : DirEntry} (hsrc : d.entry src = some e) (hdst : d.dir dst = false)
    (hne : src ≠ dst) (hother : ∀ i, e = .file i → d.entry dst ≠ some (.file i)) :
    d.renameCall vacant src dst = (d.rename src dst, 0) := by
  unfold Disk.renameCall
  rw [hsrc]
  cases e with
  | file i => simp [hdst, hother i rfl]
  | link target => simp [hdst, hne]

variable (vacant) in
theorem renameCall_onto_dir {e : DirEntry} (hsrc : d.entry src = some e) (hdst : d.dir dst = true) :
    d.renameCall vacant src dst = (d, eisdir) := by
  unfold Disk.renameCall
  rw [hsrc]
  cases e with
  | file i => simp [hdst]
  | link target => simp [hdst]

variable (dst vacant) in
theorem renameCall_frame {e : DirEntry} (hsrc : d.entry src = some e) :
    (∀ x, x ≠ src → x ≠ dst → (d.renameCall vacant src dst).1.entry x = d.entry x) ∧
      (d.renameCall vacant src dst).1.dir = d.dir := by
  have hcases : (d.renameCall vacant src dst).1 = d ∨
      (d.renameCall vacant src dst).1 = d.rename src dst := by
    unfold Disk.renameCall
    rw [hsrc]
    cases e with
    | file i =>
        dsimp only
        split
        · exact .inl rfl
        · split
          · exact .inl rfl
          · exact .inr rfl
    | link target =>
        dsimp only
        split
        · exact .inl rfl
        · split
          · exact .inl rfl
          · exact .inr rfl
  obtain heq | heq := hcases
  · rw [heq]
    exact ⟨fun _ _ _ => rfl, rfl⟩
  · rw [heq]
    refine ⟨fun x hx hx' => ?_, rfl⟩
    simp [Disk.rename, setEntry, hx, hx']

theorem isSymlinkSsd_of_placed {place : Placement} (h : PlacedAt r d view path place) :
    isSymlinkSsd d (r.fullpath path) = decide (place = .evicted) := by
  cases place with
  | regular =>
      obtain ⟨⟨i, hslot⟩, -⟩ := h
      simp [isSymlinkSsd, entry_fullpath, hslot]
  | evicted =>
      obtain ⟨⟨i, hslot⟩, -⟩ := h
      have hhdd : d.entry (r.hddpath path) = some (.file i) := by rw [entry_hddpath, hslot]
      simp [isSymlinkSsd, entry_fullpath, hslot, r.getHddPath_fullpath, access_file hhdd]
  | directory =>
      obtain ⟨hslot, -⟩ := h
      simp [isSymlinkSsd, entry_fullpath, hslot]
  | absent =>
      obtain ⟨hslot, -⟩ := h
      simp [isSymlinkSsd, entry_fullpath, hslot]

theorem dir_of_placed {place : Placement} (h : PlacedAt r d view path place) :
    d.dir (r.fullpath path) = decide (place = .directory) := by
  cases place with
  | regular => exact h.2.1
  | evicted => exact h.2.1
  | directory => exact h.2.1
  | absent => exact h.2.1

theorem mem_names_of_placed {place : Placement} (h : PlacedAt r d view path place) :
    r.fullpath path ∈ names view ↔ place = .regular := by
  cases place with
  | regular => exact iff_of_true h.2.2.2 rfl
  | evicted => exact iff_of_false h.2.2.2 nofun
  | directory => exact iff_of_false h.2.2 nofun
  | absent => exact iff_of_false h.2.2 nofun

theorem place_of_file {place : Placement} (h : PlacedAt r d view path place) {i : Nat}
    (hi : d.entry (r.fullpath path) = some (.file i)) : place = .regular := by
  rw [entry_fullpath] at hi
  cases place with
  | regular => rfl
  | evicted =>
      obtain ⟨⟨j, hslot⟩, -⟩ := h
      simp [hslot] at hi
  | directory => simp [h.1] at hi
  | absent => simp [h.1] at hi

variable (vacant) in
/-- The relinking leaves the old link, and every directory. -/
theorem relink_frame (hne : path ≠ newpath) (hplaced : PlacedAt r d view path .evicted) :
    (relink vacant (r.fullpath path) (r.fullpath newpath) d).entry (r.fullpath path) =
        some (.link (r.hddpath path)) ∧
      (relink vacant (r.fullpath path) (r.fullpath newpath) d).dir = d.dir := by
  obtain ⟨⟨i, hslot⟩, -⟩ := hplaced
  have hssd : d.entry (r.fullpath path) = some (.link (r.hddpath path)) := by
    rw [entry_fullpath, hslot]
  have hhdd : d.entry (r.hddpath path) = some (.file i) := by rw [entry_hddpath, hslot]
  have hnew : r.fullpath path ≠ r.fullpath newpath := fun heq => hne (r.fullpath_inj.mp heq)
  unfold relink
  rw [r.getHddPath_fullpath, r.getHddPath_fullpath]
  obtain ⟨hentry, hdir⟩ := renameCall_frame (r.hddpath newpath) vacant hhdd
  generalize d.renameCall vacant (r.hddpath path) (r.hddpath newpath) = call at hentry hdir ⊢
  obtain ⟨d₁, errno⟩ := call
  dsimp only at hentry hdir ⊢
  have hold : d₁.entry (r.fullpath path) = some (.link (r.hddpath path)) := by
    rw [hentry _ (r.fullpath_ne_hddpath _ _) (r.fullpath_ne_hddpath _ _), hssd]
  unfold Disk.symlink
  split
  · exact ⟨by simpa [Disk.unlink, setEntry, hnew] using hold, hdir⟩
  · exact ⟨by simpa [Disk.unlink, setEntry, hnew] using hold, hdir⟩

end Tiers

/-! ### The placements -/

variable {r : Root} {d : Disk} {s : ClockState A} {p q : List A} {view : Queue Bytes}
  {path newpath : Bytes} {vacant : Bytes → Bool} {fuel : Nat} {place : Placement}

variable (s newpath vacant fuel) in
theorem fusionRename_of_link (h : isSymlinkSsd d (r.fullpath path) = true) :
    fusionRename vacant fuel r path newpath d s =
      let call := (relink vacant (r.fullpath path) (r.fullpath newpath) d).renameCall vacant
        (r.fullpath path) (r.fullpath newpath)
      some (-(call.2 : Int), call.1, s) := by
  unfold fusionRename
  simp [h]

variable (s newpath vacant fuel) in
theorem fusionRename_of_file (h : isSymlinkSsd d (r.fullpath path) = false) :
    fusionRename vacant fuel r path newpath d s =
      let call := d.renameCall vacant (r.fullpath path) (r.fullpath newpath)
      (renameElem fuel (r.fullpath path) (r.fullpath newpath) s).map
        fun s => (-(call.2 : Int), call.1, s) := by
  unfold fusionRename
  cases hs : renameElem fuel (r.fullpath path) (r.fullpath newpath) s with
  | none => simp [h, hs]
  | some s => simp [h, hs]

/-- The last call puts the old link over the new one: it leads to the place the HDD file has left. -/
theorem renameKeeps_of_evicted (hne : path ≠ newpath)
    (hpath : PlacedAt r d view path .evicted) (hnew : PlacedAt r d view newpath place) :
    RenameKeeps vacant fuel r path newpath d s ↔ place = .directory := by
  obtain ⟨hold, hdir⟩ := relink_frame vacant hne hpath
  have hfull : r.fullpath path ≠ r.fullpath newpath := fun heq => hne (r.fullpath_inj.mp heq)
  have hrun := fusionRename_of_link s newpath vacant fuel
    (isSymlinkSsd_of_placed hpath)
  generalize relink vacant (r.fullpath path) (r.fullpath newpath) d = d₁ at hold hdir hrun
  have hdst := dir_of_placed hnew
  rw [← hdir] at hdst
  unfold RenameKeeps
  constructor
  · rintro ⟨ret, d', s', hrun', hpost⟩
    by_contra hplace
    have hcall : d₁.renameCall vacant (r.fullpath path) (r.fullpath newpath) =
        (d₁.rename (r.fullpath path) (r.fullpath newpath), 0) := by
      apply renameCall_of_entry hold
      · rw [hdst, decide_eq_false hplace]
      · exact hfull
      · intro j hj
        cases hj
    rw [hcall] at hrun
    obtain ⟨rfl, rfl, rfl⟩ := by simpa using hrun.symm.trans hrun'
    obtain ⟨p', q', view', hrep, hrenamed⟩ := hpost rfl
    have hover : (d₁.rename (r.fullpath path) (r.fullpath newpath)).entry (r.fullpath newpath) =
        some (.link (r.hddpath path)) := by
      simp [Disk.rename, setEntry, hfull.symm, hold]
    have htarget := (hrenamed.linked _ hover).1
    exact hne (r.hddpath_inj.mp htarget)
  · rintro rfl
    have hcall := renameCall_onto_dir vacant hold (hdst.trans (decide_eq_true rfl))
    rw [hcall] at hrun
    refine ⟨_, _, _, hrun, fun hret => ?_⟩
    cases hret

theorem not_renameKeeps_of_directory (h : Represents s p q view) (hfuel : view.length ≤ fuel)
    (hpath : PlacedAt r d view path .directory) : ¬ RenameKeeps vacant fuel r path newpath d s := by
  rintro ⟨ret, d', s', hrun, -⟩
  rw [fusionRename_of_file _ _ vacant _ (isSymlinkSsd_of_placed hpath),
    renameElem_of_notMem h hfuel hpath.2.2] at hrun
  cases hrun

/-- A regular file that takes a new name takes its content and its place in the queue along. -/
theorem renamed_of_regular (hne : path ≠ newpath) {i : Nat}
    (hslot : d.slot r path = ⟨some (.file i), none⟩) (hdir : d.dir (r.fullpath path) = false)
    (hhdir : d.dir (r.hddpath path) = false) (hin : r.fullpath path ∈ names view)
    (hdistinct : (names (SecondChance.rename (r.fullpath path) (r.fullpath newpath) view)).Nodup) :
    Renamed r d (d.rename (r.fullpath path) (r.fullpath newpath))
      (SecondChance.rename (r.fullpath path) (r.fullpath newpath) view) path newpath := by
  have hfull : r.fullpath path ≠ r.fullpath newpath := fun heq => hne (r.fullpath_inj.mp heq)
  have hssd : d.entry (r.fullpath path) = some (.file i) := by rw [entry_fullpath, hslot]
  have hhdd : d.entry (r.hddpath path) = none := by rw [entry_hddpath, hslot]
  have hmoved : (d.rename (r.fullpath path) (r.fullpath newpath)).entry (r.fullpath newpath) =
      some (.file i) := by
    simp [Disk.rename, setEntry, hfull.symm, hssd]
  have h₁ : r.hddpath path ≠ r.fullpath path := (r.fullpath_ne_hddpath _ _).symm
  have h₂ : r.hddpath path ≠ r.fullpath newpath := (r.fullpath_ne_hddpath _ _).symm
  refine ⟨⟨?_, ?_⟩, ?_, ?_, ?_, ?_, notMem_names_rename hfull, hdistinct⟩
  · exact lstat_eq_false_iff.mpr ⟨by simp [Disk.rename, setEntry], hdir⟩
  · exact lstat_eq_false_iff.mpr ⟨by simp [Disk.rename, setEntry, h₁, h₂, hhdd], hhdir⟩
  · rw [openIno_file hmoved, openIno_file hssd]
    rfl
  · intro htree
    rw [hdir] at htree
    cases htree
  · intro target htarget
    rw [hmoved] at htarget
    cases htarget
  · intro _
    exact List.count_eq_one_of_mem hdistinct (mem_names_rename hin)

theorem renameKeeps_of_regular (hne : path ≠ newpath) (h : Represents s p q view)
    (hfuel : view.length ≤ fuel) (hpath : PlacedAt r d view path .regular)
    (hnew : PlacedAt r d view newpath place) :
    RenameKeeps vacant fuel r path newpath d s ↔
      place ≠ .regular ∧ (r.fullpath newpath).length < nameMax := by
  have hrun := fusionRename_of_file s newpath vacant fuel
    (isSymlinkSsd_of_placed hpath)
  have hfull : r.fullpath path ≠ r.fullpath newpath := fun heq => hne (r.fullpath_inj.mp heq)
  have hin := (mem_names_of_placed hpath).mpr rfl
  have hdst := dir_of_placed hnew
  obtain ⟨⟨i, hslot⟩, hdir, hhdir, -⟩ := hpath
  have hssd : d.entry (r.fullpath path) = some (.file i) := by rw [entry_fullpath, hslot]
  unfold RenameKeeps
  constructor
  · rintro ⟨ret, d', s', hrun', hpost⟩
    have hfits : (r.fullpath newpath).length < nameMax := by
      by_contra hlong
      rw [hrun, renameElem_of_long (Nat.not_lt.mp hlong)] at hrun'
      cases hrun'
    refine ⟨?_, hfits⟩
    rintro rfl
    -- both names are in the queue, and the call succeeds whatever file the new one had
    have htwice := (mem_names_of_placed hnew).mpr rfl
    obtain ⟨s₁, a, bit, hs₁, -⟩ := renameElem_of_mem h hfuel hin hfits
    have hcall : (d.renameCall vacant (r.fullpath path) (r.fullpath newpath)).2 = 0 := by
      unfold Disk.renameCall
      rw [hssd]
      dsimp only
      rw [if_neg (by simp [hdst])]
      split <;> rfl
    rw [hrun, hs₁] at hrun'
    obtain ⟨hret, -, rfl⟩ := by simpa using hrun'
    obtain ⟨p', q', view', hrep, -⟩ := hpost (by rw [← hret, hcall]; rfl)
    exact not_represents_of_renameElem h hfuel hfull hin htwice hs₁ hrep
  · rintro ⟨hplace, hfits⟩
    have hout : r.fullpath newpath ∉ names view := fun hmem =>
      hplace ((mem_names_of_placed hnew).mp hmem)
    obtain ⟨s', hs', hrep⟩ := renameElem_fresh h hfuel hin hfits hout
    rw [hs'] at hrun
    by_cases hd : place = .directory
    · rw [renameCall_onto_dir vacant hssd (hdst.trans (decide_eq_true hd))] at hrun
      exact ⟨_, _, _, hrun, nofun⟩
    · have hcall : d.renameCall vacant (r.fullpath path) (r.fullpath newpath) =
          (d.rename (r.fullpath path) (r.fullpath newpath), 0) := by
        apply renameCall_of_entry hssd
        · rw [hdst, decide_eq_false hd]
        · exact hfull
        · rintro j - hj
          exact hplace (place_of_file hnew hj)
      rw [hcall] at hrun
      exact ⟨_, _, _, hrun, fun _ =>
        ⟨p, q, _, hrep, renamed_of_regular hne hslot hdir hhdir hin hrep.distinct⟩⟩

/-- **Rename keeps tiers and queue consistent** exactly when a regular file gets a name that is
neither cached nor too long for a cell of the queue, or when an evicted one is refused because there
is a directory of the new name. -/
theorem rename_iff (vacant : Bytes → Bool) (fuel : Nat) (r : Root) (path newpath : Bytes) (d : Disk)
    (s : ClockState A) (p q : List A) (view : Queue Bytes) (old new : Placement)
    (hne : path ≠ newpath) (hqueue : Represents s p q view) (hfuel : view.length ≤ fuel)
    (hpath : PlacedAt r d view path old) (hthere : old ≠ .absent)
    (hnewpath : PlacedAt r d view newpath new) :
    RenameKeeps vacant fuel r path newpath d s ↔
      (old = .regular ∧ new ≠ .regular ∧ (r.fullpath newpath).length < nameMax) ∨
        (old = .evicted ∧ new = .directory) := by
  cases old with
  | regular =>
      rw [renameKeeps_of_regular hne hqueue hfuel hpath hnewpath]
      simp
  | evicted =>
      rw [renameKeeps_of_evicted hne hpath hnewpath]
      simp
  | directory =>
      apply iff_of_false (not_renameKeeps_of_directory hqueue hfuel hpath)
      simp
  | absent => exact absurd rfl hthere

/-- The ring of one cached file. -/
def oneCached (fname : Bytes) : ClockState Nat :=
  ⟨fun a => if a = 0 then some ⟨0, 0, fname, true⟩ else none, some 0, some 0, none⟩

theorem represents_oneCached (fname : Bytes) :
    Represents (oneCached fname) [] [0] [(fname, true)] := by
  refine ⟨⟨by decide, ?_, ?_, rfl, rfl⟩, .inl ⟨rfl, rfl⟩, rfl, by simp⟩
  · intro a
    by_cases ha : a = 0
    · simp [content, oneCached, ha]
    · simp [content, oneCached, ha]
  · simp [Ring.Cycle, Ring.Linked, links, oneCached]

/-- A cached file is renamed to `/b`, where there is nothing. -/
theorem rename_iff_fresh :
    RenameKeeps (fun _ => true) 1 ⟨cstr "/mnt", by decide⟩ (cstr "/a") (cstr "/b")
        ⟨fun x => if x = cstr "/mnt/ssd/a" then some (.file 0) else none, fun _ => false, fun _ => [],
          1⟩ (oneCached (cstr "/mnt/ssd/a")) ↔
      (Placement.regular = .regular ∧ Placement.absent ≠ .regular ∧
          (cstr "/mnt/ssd/b").length < nameMax) ∨
        (Placement.regular = .evicted ∧ Placement.absent = .directory) :=
  rename_iff (fun _ => true) 1 ⟨cstr "/mnt", by decide⟩ (cstr "/a") (cstr "/b")
    ⟨fun x => if x = cstr "/mnt/ssd/a" then some (.file 0) else none, fun _ => false, fun _ => [], 1⟩
    (oneCached (cstr "/mnt/ssd/a")) [] [0] [(cstr "/mnt/ssd/a", true)] .regular .absent (by decide)
    (represents_oneCached _) (by decide) ⟨⟨0, by decide⟩, rfl, rfl, by decide⟩ (by decide)
    ⟨by decide, rfl, by decide⟩

/-- The file `/a` was moved to the HDD. Renamed to `/b`, it is a link to the HDD file of `/a`, which
is not there any more. -/
theorem not_rename :
    ¬ ∀ (vacant : Bytes → Bool) (fuel : Nat) (r : Root) (path newpath : Bytes) (d : Disk)
      (s : ClockState Nat) (p q : List Nat) (view : Queue Bytes) (old new : Placement),
      path ≠ newpath → Represents s p q view → view.length ≤ fuel →
      PlacedAt r d view path old → old ≠ .absent → PlacedAt r d view newpath new →
      RenameKeeps vacant fuel r path newpath d s := by
  intro hall
  have hold : PlacedAt ⟨cstr "/mnt", by decide⟩
      ⟨fun x => if x = cstr "/mnt/ssd/a" then some (.link (cstr "/mnt/hdd/a"))
        else if x = cstr "/mnt/hdd/a" then some (.file 0) else none, fun _ => false, fun _ => [], 1⟩
      [] (cstr "/a") .evicted := ⟨⟨0, by decide⟩, rfl, rfl, by decide⟩
  have hnew : PlacedAt ⟨cstr "/mnt", by decide⟩
      ⟨fun x => if x = cstr "/mnt/ssd/a" then some (.link (cstr "/mnt/hdd/a"))
        else if x = cstr "/mnt/hdd/a" then some (.file 0) else none, fun _ => false, fun _ => [], 1⟩
      [] (cstr "/b") .absent := ⟨by decide, rfl, by decide⟩
  have hkeeps := hall (fun _ => true) 1 _ _ _ _ ClockState.empty [] [] [] .evicted .absent (by decide)
    Represents.empty (by decide) hold (by decide) hnew
  have hdir := (renameKeeps_of_evicted (by decide) hold hnew).mp hkeeps
  cases hdir

end FusionFS
