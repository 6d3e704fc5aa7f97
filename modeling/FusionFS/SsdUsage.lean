import FusionFS.CString
import FusionFS.Lib.Rounding
import Mathlib.Tactic.Linarith

/-!
# How full the SSD is

`get_used_ssd` walks the SSD directory with `ftw` and adds up sizes in an `int`. Integers are those of
the code; an `int` that overflows wraps around. The walk may read and search every directory it meets,
and no path on it is too long for `lstat`.
-/

namespace FusionFS.SsdUsage

open Rounding

/-- `off_t`, as `stat` fills it in. -/
structure FileSize where
  bytes : Int64
  nonneg : 0 ≤ bytes.toInt

/-- Where a link leads. Behind a dangling link is nothing that `stat` finds or may look at, and on a
failing one, such as a loop of links, it fails otherwise. -/
inductive Target where
  | file (size : FileSize)
  | dangling
  | failing
  | dir (id : Nat) (size : FileSize)

/-- The entries of a directory, in the order in which `readdir` gives them. A directory is known by its
device and inode; behind a link to one are its entries. -/
inductive Forest where
  | nil
  | file (name : Bytes) (size : FileSize) (rest : Forest)
  | link (name : Bytes) (len : FileSize) (target : Target) (behind rest : Forest)
  | dir (name : Bytes) (id : Nat) (size : FileSize) (below rest : Forest)

/-- What `sum_size_ssd` is called with, and what it sees with `lstat`. -/
structure Visit where
  name : Bytes
  st : FileSize
  isLink : Bool
  lst : FileSize

/-- The calls that `ftw` makes, the directories it knows after them, and whether it stops there. -/
structure Walk where
  calls : List Visit
  known : List Nat
  stopped : Bool

/-- The next entry is looked at unless the walk has stopped. -/
def Walk.andThen (w : Walk) (next : List Nat → Walk) : Walk :=
  if w.stopped then w
  else
    let w' := next w.known
    ⟨w.calls ++ w'.calls, w'.known, w'.stopped⟩

def report (known : List Nat) (v : Visit) : Walk := ⟨[v], known, false⟩

/-- A directory is reported before its entries, and one that the walk knows not at all. -/
def enter (known : List Nat) (id : Nat) (v : Visit) (below : List Nat → Walk) : Walk :=
  if id ∈ known then ⟨[], known, false⟩ else (report (id :: known) v).andThen below

/-- A link is reported with what it leads to, and a directory behind it is walked. -/
def follow (known : List Nat) (path : Bytes) (len : FileSize) (behind : List Nat → Walk) :
    Target → Walk
  | .file size => report known ⟨path, size, true, len⟩
  | .dangling => report known ⟨path, len, true, len⟩
  | .failing => ⟨[], known, true⟩
  | .dir id size => enter known id ⟨path, size, true, len⟩ behind

/-- The SSD directory. -/
structure Root where
  id : Nat
  size : FileSize
  entries : Forest

/-- The sizes of the entries on the SSD, of a link its own. -/
def onSsd : Forest → Int
  | .nil => 0
  | .file _ size rest => size.bytes.toInt + onSsd rest
  | .link _ len _ _ rest => len.bytes.toInt + onSsd rest
  | .dir _ _ size below rest => size.bytes.toInt + onSsd below + onSsd rest

/-- What the walk finds behind links and what it passes over on the SSD, by size. -/
structure Tally where
  strays : Int
  skips : Int
  known : List Nat
  stopped : Bool

/-- A walk that has stopped passes over the entries that come next. -/
def Tally.andThen (t : Tally) (size : Int) (next : List Nat → Tally) : Tally :=
  if t.stopped then { t with skips := t.skips + size }
  else
    let t' := next t.known
    ⟨t.strays + t'.strays, t.skips + t'.skips, t'.known, t'.stopped⟩

/-- A link is passed over where `stat` fails or the walk has been to the directory it leads to.
Otherwise everything behind it is a stray. -/
def Tally.follow (known : List Nat) (len size : Int) (behind : List Nat → Tally) : Target → Tally
  | .file _ => ⟨0, 0, known, false⟩
  | .dangling => ⟨0, 0, known, false⟩
  | .failing => ⟨0, len, known, true⟩
  | .dir id _ =>
      if id ∈ known then ⟨0, len, known, false⟩
      else
        let t := behind (id :: known)
        ⟨size + t.strays - t.skips, 0, t.known, t.stopped⟩

/-- A directory that the walk has been to is passed over with all that is below it. -/
def Tally.enter (known : List Nat) (id : Nat) (size : Int) (below : List Nat → Tally) : Tally :=
  if id ∈ known then ⟨0, size, known, false⟩ else below (id :: known)

def tally : Forest → List Nat → Tally
  | .nil, known => ⟨0, 0, known, false⟩
  | .file _ _ rest, known => tally rest known
  | .link _ len target behind rest, known =>
      (Tally.follow known len.bytes.toInt (onSsd behind) (tally behind) target).andThen (onSsd rest)
        (tally rest)
  | .dir _ id size below rest, known =>
      (Tally.enter known id (size.bytes.toInt + onSsd below) (tally below)).andThen (onSsd rest)
        (tally rest)

/-- What the walk finds behind links makes up for what it passes over. -/
def Balanced (root : Root) : Prop :=
  (tally root.entries [root.id]).strays = (tally root.entries [root.id]).skips

/-- The size that counts, without an `int` in between. -/
def Visit.size (v : Visit) : Int := if v.isLink then v.lst.bytes.toInt else v.st.bytes.toInt

section Count

variable {s : FusionState} {vs : List Visit} {v : Visit} {tree : Forest} {root : Root}

/-- Every call is below the directory. -/
def Below (dir : Bytes) (w : Walk) : Prop := ∀ v ∈ w.calls, dir.length < v.name.length

theorem Below.andThen {dir : Bytes} {w : Walk} {next : List Nat → Walk} (hw : Below dir w)
    (hnext : ∀ known, Below dir (next known)) : Below dir (w.andThen next) := by
  intro v hv
  rw [Walk.andThen] at hv
  split at hv
  · exact hw v hv
  · cases List.mem_append.mp hv with
    | inl h => exact hw v h
    | inr h => exact hnext w.known v h

/-- A walk over entries of a size, and its tally. -/
structure Tallies (w : Walk) (t : Tally) (size : Int) : Prop where
  sum : (w.calls.map Visit.size).sum + t.skips = size + t.strays
  known : w.known = t.known
  stopped : w.stopped = t.stopped

theorem Tallies.andThen {w : Walk} {t : Tally} {n m : Int} {next : List Nat → Walk}
    {next' : List Nat → Tally} (h : Tallies w t n)
    (hnext : ∀ known, Tallies (next known) (next' known) m) :
    Tallies (w.andThen next) (t.andThen m next') (n + m) := by
  have hsum := h.sum
  rw [Walk.andThen, Tally.andThen, h.stopped]
  split
  · refine ⟨?_, h.known, h.stopped⟩
    dsimp only
    omega
  · have hrest := hnext t.known
    have hsumRest := hrest.sum
    rw [h.known]
    refine ⟨?_, hrest.known, hrest.stopped⟩
    dsimp only
    rw [List.map_append, List.sum_append]
    omega

theorem Tally.andThen_nil (known : List Nat) (size : Int) (next : List Nat → Tally) :
    (⟨0, 0, known, false⟩ : Tally).andThen size next = next known := by
  simp [Tally.andThen]

/-- No link leads to a directory, and none fails. -/
def Plain : Forest → Prop
  | .nil => True
  | .file _ _ rest => Plain rest
  | .link _ _ target _ rest => ((∃ size, target = .file size) ∨ target = .dangling) ∧ Plain rest
  | .dir _ _ _ below rest => Plain below ∧ Plain rest

/-- The directories, the last first. -/
def dirIds : Forest → List Nat
  | .nil => []
  | .file _ _ rest => dirIds rest
  | .link _ _ _ _ rest => dirIds rest
  | .dir _ id _ below rest => dirIds rest ++ dirIds below ++ [id]

theorem tally_of_plain {known : List Nat} (hplain : Plain tree)
    (hnodup : (dirIds tree ++ known).Nodup) :
    tally tree known = ⟨0, 0, dirIds tree ++ known, false⟩ := by
  induction tree generalizing known with
  | nil => rfl
  | file name size rest ih => exact ih hplain hnodup
  | link name len target behind rest _ ih =>
      obtain ⟨htarget, hrest⟩ := hplain
      have hfollow : Tally.follow known len.bytes.toInt (onSsd behind) (tally behind) target
          = ⟨0, 0, known, false⟩ := by
        rcases htarget with ⟨size, rfl⟩ | rfl
        · rfl
        · rfl
      rw [tally, hfollow, Tally.andThen_nil]
      exact ih hrest hnodup
  | dir name id size below rest ihBelow ih =>
      obtain ⟨hbelow, hrest⟩ := hplain
      simp only [dirIds, List.append_assoc, List.singleton_append] at hnodup ⊢
      have hinner := (List.nodup_append.mp hnodup).2.1
      have hid : id ∉ known := (List.nodup_cons.mp (List.nodup_append.mp hinner).2.1).1
      rw [tally, Tally.enter, if_neg hid, ihBelow hbelow hinner, Tally.andThen_nil]
      exact ih hrest hnodup

end Count

/-- An SSD whose links lead to files, as those that the cache makes do. -/
theorem balanced_of_plain {root : Root} (hplain : Plain root.entries)
    (hnodup : (dirIds root.entries ++ [root.id]).Nodup) : Balanced root := by
  rw [Balanced, tally_of_plain hplain hnodup]

end FusionFS.SsdUsage
