import FusionFS.Namespace

/-!
# Mounting more nodes

`main` inserts the root directory with an empty listing, on every node that mounts the file system
and whatever the store holds by then. Unmounting removes nothing.
-/

namespace FusionFS

open Transition

/-- A node mounts the file system, or an operation of a node that has. -/
inductive MountEvent where
  | mount
  | op (op : NsOp)

/-- `zht_insert("/", " ")` of `main`. -/
def mountRoot (z : Zht) : Zht := zhtInsert z [slash] [space]

def mountStep (z : Zht) : MountEvent → Option Zht
  | .mount => some (mountRoot z)
  | .op op => nsStep z op

def MountLegal (z : Zht) : MountEvent → Prop
  | .mount => True
  | .op op => NsLegal z op

instance (z : Zht) (e : MountEvent) : Decidable (MountLegal z e) :=
  match e with
  | .mount => .isTrue trivial
  | .op op => inferInstanceAs (Decidable (NsLegal z op))

/-- The root directory is empty when a node mounts. -/
def MountsEmpty (z : Zht) : MountEvent → Prop
  | .mount => listed z [slash] = []
  | .op _ => True

instance (z : Zht) (e : MountEvent) : Decidable (MountsEmpty z e) :=
  match e with
  | .mount => inferInstanceAs (Decidable (_ = _))
  | .op _ => .isTrue trivial

section

variable {z : Zht} {w : Bytes}

theorem getLast?_root : [slash].getLast? = some slash := rfl

/-- Over an empty root directory, a mount changes nothing. -/
theorem Tree.mountRoot_eq (h : Tree z) (hnil : listed z [slash] = []) : mountRoot z = z := by
  obtain ⟨hval, -, -⟩ := h.listing [slash] getLast?_root h.root
  rw [hnil] at hval
  exact Function.update_eq_self_iff.mpr hval.symm

theorem listed_mountRoot : listed (mountRoot z) [slash] = [] :=
  listed_of_eq (by simp) zhtInsert_self

theorem Tree.mountRoot_key (h : Tree z) (hw : w ∈ listed z [slash]) :
    (mountRoot z ([slash] ++ w)).isSome := by
  obtain ⟨htoken, -, hkey⟩ := h.token getLast?_root hw
  have hne : [slash] ++ w ≠ [slash] := htoken.append_ne_slash getLast?_root
  rwa [mountRoot, zhtInsert_of_ne hne]

/-- Over any other, the entries of the root directory lose their names. -/
theorem Tree.not_namespaceInvariant_mountRoot (h : Tree z) (hw : w ∈ listed z [slash]) :
    ¬NamespaceInvariant (mountRoot z) := by
  intro hinv
  have hkey := h.mountRoot_key hw
  obtain ⟨⟨name, hname, hform⟩, -, -⟩ := h.token getLast?_root hw
  have hleaf : ([slash] ++ name).getLast? ≠ some slash := by
    rw [List.getLast?_append_of_ne_nil _ hname.1]
    exact fun hlast => hname.2.1 (List.mem_of_getLast? hlast)
  -- the path of the entry, whatever kind it is of
  let p : FilePath := ⟨[slash] ++ name, rfl, hleaf⟩
  have hdirname : p.dirname = [slash] := dirOf_append_of_notMem getLast?_root hname.2.1
  rcases hform with rfl | rfl
  · have hlisted := (hinv.file p).mp hkey
    rw [hdirname, ← listed, listed_mountRoot] at hlisted
    exact absurd hlisted List.not_mem_nil
  · rw [← List.append_assoc] at hkey
    have hlisted := (hinv.dir p).mp hkey
    rw [hdirname, ← listed, listed_mountRoot] at hlisted
    exact absurd hlisted List.not_mem_nil

/-- After it, removing a file of the root directory goes on with the `NULL` of `strstr`. -/
theorem Tree.unlinkEntry_mountRoot (h : Tree z) (p : FilePath) (hroot : p.dirname = [slash])
    (hp : (z p.bytes).isSome) : unlinkEntry (mountRoot z) p.bytes = none := by
  have hne : p.bytes ≠ [slash] := p.ne_of_getLast?_slash getLast?_root
  obtain ⟨val, hval⟩ := Option.isSome_iff_exists.mp hp
  obtain ⟨-, htoken⟩ := h.parent_file p hp
  have hval' : mountRoot z p.bytes = some val := by rw [mountRoot, zhtInsert_of_ne hne, hval]
  have hdelete : zhtDelete (mountRoot z) (dirOf p.bytes) (baseOf p.bytes) = none := by
    rw [← FilePath.dirname, ← FilePath.fname, hroot]
    cases hz : zhtDelete (mountRoot z) [slash] p.fname with
    | none => rfl
    | some z' =>
        have henc : mountRoot z [slash] = some (Delimited.enc space []) := zhtInsert_self
        have hmem := mem_of_zhtDelete henc (by simp) htoken.space_notMem hz
        exact absurd hmem List.not_mem_nil
  rw [unlinkEntry, hval']
  simp only [hdelete, Option.bind_eq_bind, Option.bind_none]

end

/-- **Mounting.** In every run of mounts and legal operations, each operation finds the names it
deletes and keys and listings stay in agreement, exactly if every further node mounts while the root
directory is empty. -/
theorem mounts_tree_iff (events : List MountEvent)
    (hlegal : Guarded mountStep MountLegal zhtInit events) :
    Safe mountStep NamespaceInvariant zhtInit events ↔
      Guarded mountStep MountsEmpty zhtInit events := by
  refine safe_iff_guarded (I := Tree) (fun _ h => h.namespaceInvariant) ?_ ?_ Tree.init hlegal
  · intro z e h hl hg
    cases e with
    | mount => exact ⟨z, congrArg some (h.mountRoot_eq hg), h⟩
    | op op => exact h.step hl
  · intro z e z' h _ hstep hinv
    cases e with
    | mount =>
        obtain rfl := Option.some.inj hstep
        by_contra hne
        obtain ⟨w, hw⟩ := List.exists_mem_of_ne_nil _ hne
        exact h.not_namespaceInvariant_mountRoot hw hinv
    | op op => trivial

/-- A second node that mounts after the first directory has been made. -/
theorem mounts_tree_second : ¬Safe mountStep NamespaceInvariant zhtInit
    [.mount, .op (.mkdir (filePath "/d" path_d)), .mount] :=
  (mounts_tree_iff _ (by decide)).not.mpr (by decide)

end FusionFS
