import FusionFS.Cluster
import FusionFS.Listing
import Mathlib.Data.List.Infix

/-!
# What listing does to the local disk

When the value of a directory is the empty listing, `fusion_readdir` removes what the node still has
of the directory, by a command whose pattern is the path of the directory with a star behind it.
Otherwise it makes the directories it lists.
-/

namespace FusionFS

namespace Disk

variable (d : Disk)

/-- The shell's expansion of `p*`. -/
def glob (p q : Bytes) : Bool := d.lstat q && p.isPrefixOf q

/-- The paths that `rm -r` takes away: its arguments, and what is below them. -/
def gone (args : Bytes → Bool) (q : Bytes) : Bool :=
  q.inits.any fun a => args a && (a == q || (a ++ [slash]).isPrefixOf q)

/-- `rm -r`. -/
def removeAll (args : Bytes → Bool) : Disk :=
  { d with
      entry := fun q => if gone args q then none else d.entry q
      dir := fun q => if gone args q then false else d.dir q }

/-- At this path there is what there was. -/
def SameAt (d' : Disk) (q : Bytes) : Prop := d'.entry q = d.entry q ∧ d'.dir q = d.dir q

end Disk

/-- What the paths strictly below a directory begin with. The path of the root ends in its slash. -/
def belowDir (r : Root) (path : Bytes) : Bytes :=
  if path = [slash] then r.fullpath path else r.fullpath path ++ [slash]

/-- What `fusion_readdir` does to the disk of its node. A name that ends in a slash makes a
directory. -/
def readdirDisk (r : Root) (z : Zht) (path : Bytes) (d : Disk) : Disk :=
  let fpath := r.fullpath path
  let filelist := zhtValue z (readdirKey path)
  let d := if filelist = [space] then d.removeAll (d.glob fpath) else d
  (fusionReaddir z path).foldl (fun d pch =>
    if pch.getLast? = some slash then d.mkdir (belowDir r path ++ pch.dropLast) else d) d

/-- Nothing that is not strictly below the directory changes. -/
def Harmless (r : Root) (path : Bytes) (d d' : Disk) : Prop :=
  ∀ q, ¬belowDir r path <+: q → d.SameAt d' q

variable {r : Root} {z : Zht} {path q : Bytes} {d d' : Disk}

theorem Disk.SameAt.trans {d'' : Disk} (h : d.SameAt d' q) (h' : d'.SameAt d'' q) :
    d.SameAt d'' q := ⟨h'.1.trans h.1, h'.2.trans h.2⟩

theorem Disk.gone_iff {args : Bytes → Bool} :
    Disk.gone args q = true ↔ ∃ a, args a = true ∧ (a = q ∨ a ++ [slash] <+: q) := by
  rw [Disk.gone, List.any_eq_true]
  constructor
  · rintro ⟨a, -, ha⟩
    rw [Bool.and_eq_true, Bool.or_eq_true, beq_iff_eq, List.isPrefixOf_iff_prefix] at ha
    exact ⟨a, ha⟩
  · rintro ⟨a, hargs, ha⟩
    refine ⟨a, (List.mem_inits a q).mpr ?_, ?_⟩
    · rcases ha with rfl | ha
      · exact List.prefix_rfl
      · exact (List.prefix_append a [slash]).trans ha
    · rw [Bool.and_eq_true, Bool.or_eq_true, beq_iff_eq, List.isPrefixOf_iff_prefix]
      exact ⟨hargs, ha⟩

/-- `rm -r` leaves a path alone unless it, or something it is below, is among the arguments. -/
theorem Disk.sameAt_removeAll {args : Bytes → Bool}
    (h : ∀ a, args a = true → a ≠ q ∧ ¬a ++ [slash] <+: q) : d.SameAt (d.removeAll args) q := by
  have hkept : ¬Disk.gone args q = true := by
    rw [Disk.gone_iff]
    rintro ⟨a, hargs, heq | hbelow⟩
    · exact (h a hargs).1 heq
    · exact (h a hargs).2 hbelow
  exact ⟨if_neg hkept, if_neg hkept⟩

theorem Disk.sameAt_mkdir {p : Bytes} (hp : p ≠ q) : d.SameAt (d.mkdir p) q := by
  unfold Disk.mkdir
  split
  · exact ⟨rfl, rfl⟩
  · exact ⟨rfl, Function.update_of_ne hp.symm ..⟩

theorem readdir_harmless_of_listing (h : zhtValue z (readdirKey path) ≠ [space]) :
    Harmless r path d (readdirDisk r z path d) := by
  intro q hq
  unfold readdirDisk
  dsimp only
  rw [if_neg h]
  generalize fusionReaddir z path = names
  induction names generalizing d with
  | nil => exact ⟨rfl, rfl⟩
  | cons pch names ih =>
      rw [List.foldl_cons]
      refine Disk.SameAt.trans ?_ ih
      split
      · apply Disk.sameAt_mkdir
        rintro rfl
        exact hq (List.prefix_append _ _)
      · exact ⟨rfl, rfl⟩

theorem readdirDisk_of_empty (h : zhtValue z (readdirKey path) = [space]) :
    readdirDisk r z path d = d.removeAll (d.glob (r.fullpath path)) := by
  have hnames : fusionReaddir z path = [] := by
    rw [fusionReaddir, h]
    rfl
  unfold readdirDisk
  dsimp only
  rw [if_pos h, hnames]
  rfl

theorem Disk.glob_iff {p : Bytes} : d.glob p q = true ↔ d.lstat q = true ∧ p <+: q := by
  rw [Disk.glob, Bool.and_eq_true, List.isPrefixOf_iff_prefix]

theorem Disk.lstat_removeAll_of_mem {args : Bytes → Bool} (h : args q = true) :
    (d.removeAll args).lstat q = false := by
  have hgone : Disk.gone args q = true := Disk.gone_iff.mpr ⟨q, h, .inl rfl⟩
  simp [Disk.lstat, Disk.removeAll, hgone]

/-- **Listing an empty directory** harms nothing outside it exactly when all that is on the disk and
begins like the directory is below it; so the directory itself must not be there. -/
theorem readdir_harmless_iff (r : Root) (z : Zht) (path : Bytes) (d : Disk)
    (hempty : zhtValue z (readdirKey path) = [space]) :
    Harmless r path d (readdirDisk r z path d) ↔
      ∀ q, d.lstat q = true → r.fullpath path <+: q → belowDir r path <+: q := by
  rw [readdirDisk_of_empty hempty]
  constructor
  · intro h q hq hbegins
    by_contra hbelow
    obtain ⟨hentry, hdir⟩ := h q hbelow
    have hlstat := Disk.lstat_removeAll_of_mem (d := d) (Disk.glob_iff.mpr ⟨hq, hbegins⟩)
    rw [Disk.lstat, hentry, hdir, ← Disk.lstat, hq] at hlstat
    cases hlstat
  · intro h q hq
    apply Disk.sameAt_removeAll
    intro a ha
    obtain ⟨hlstat, hbegins⟩ := Disk.glob_iff.mp ha
    have hbelow := h a hlstat hbegins
    constructor
    · rintro rfl
      exact hq hbelow
    · intro hunder
      exact hq ((hbelow.trans (List.prefix_append a [slash])).trans hunder)

/-- A node that has the empty directory `/a` and the file `/ab`. -/
def siblings : Disk :=
  ⟨fun q => if q = cstr "/mnt/ssd/ab" then some (.file 0) else none,
    fun q => q = cstr "/mnt/ssd" ∨ q = cstr "/mnt/ssd/a", fun _ => [], 1⟩

/-- Listing the root, when it is empty. -/
theorem readdir_harmless_iff_root :
    Harmless twoNodes.root [slash] siblings (readdirDisk twoNodes.root zhtInit [slash] siblings) ↔
      ∀ q, siblings.lstat q = true → twoNodes.root.fullpath [slash] <+: q →
        belowDir twoNodes.root [slash] <+: q :=
  readdir_harmless_iff twoNodes.root zhtInit [slash] siblings (by decide)

/-- Listing `/a` removes the directory and the file next to it. -/
theorem not_readdir_harmless :
    zhtValue (zhtInsert zhtInit (cstr "/a/") [space]) (readdirKey (cstr "/a")) = [space] ∧
      (siblings.entry (cstr "/mnt/ssd/ab")).isSome = true ∧
      siblings.dir (cstr "/mnt/ssd/a") = true ∧
      ((readdirDisk twoNodes.root (zhtInsert zhtInit (cstr "/a/") [space]) (cstr "/a")
        siblings).entry (cstr "/mnt/ssd/ab")).isSome = false ∧
      (readdirDisk twoNodes.root (zhtInsert zhtInit (cstr "/a/") [space]) (cstr "/a")
        siblings).dir (cstr "/mnt/ssd/a") = false ∧
      ¬Harmless twoNodes.root (cstr "/a") siblings
        (readdirDisk twoNodes.root (zhtInsert zhtInit (cstr "/a/") [space]) (cstr "/a") siblings) := by
  refine ⟨by decide, by decide, by decide, by decide +kernel, by decide +kernel, ?_⟩
  intro h
  have hsame := (h (cstr "/mnt/ssd/a") (by decide)).2
  revert hsame
  decide +kernel

end FusionFS
