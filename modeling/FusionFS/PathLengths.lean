import FusionFS.Rename
import FusionFS.ShellCommands

/-!
# Lengths of paths

A path that FUSE hands over is copied behind the root directory, twice into a command for the shell,
and into the name of a cell of the queue. The arrays have three sizes.
-/

namespace FusionFS.PathLengths

open Buffered (ssdPath)

open SecondChance ShellCommands Transition

/-- A path FUSE can deliver: its names and the whole of it are within the limits of the system. -/
structure Delivered (path : Bytes) : Prop where
  absolute : path.head? = some slash
  components : ∀ name ∈ path.splitOn slash, name.length ≤ nameMax
  short : path.length < pathMax

variable (A : Type) [DecidableEq A]

/-- Every array is long enough for the path, and the queue takes it and gives it back as it is. -/
structure Fits (r : Root) (path : Bytes) : Prop where
  name : (r.fullpath path).length < nameMax
  full : ∃ fpath, ssdPath r path = some fpath ∧ fpath.length < pathMax
  toHdd : ∃ cmd, (ssdPath r path).bind ShellCommands.moveFileSsd = some cmd ∧ cmd.length < pathMax
  toSsd : ∃ cmd, (ssdPath r path).bind ShellCommands.moveFileHdd = some cmd ∧ cmd.length < pathMax
  queued : ∀ (fuel : Nat) (s : ClockState A) (p q : List A) (view : Queue Bytes) (elem : A)
    (junk : Inode A), Represents s p q view → view.length + 1 < fuel → s.heap elem = none →
    ∃ s' p' q', (ssdPath r path).bind (insqueClock fuel elem junk · s) = some s' ∧
      Represents s' p' q' (insque (r.fullpath path) view) ∧
      ∃ s'' out, run (clockStep fuel) (s', [])
          (List.replicate (insque (r.fullpath path) view).length .remque) = some (s'', out) ∧
        out.Perm (names (insque (r.fullpath path) view))
  renamed : ∀ (fuel : Nat) (s : ClockState A) (p q : List A) (view : Queue Bytes) (fpath : Bytes),
    Represents s p q view → view.length ≤ fuel → fpath ∈ names view →
    r.fullpath path ∉ names view →
    ∃ s', (ssdPath r path).bind (renameElem fuel fpath · s) = some s' ∧
      Represents s' p q (SecondChance.rename fpath (r.fullpath path) view)

variable {A} {r : Root} {path : Bytes}

theorem length_hddpath (r : Root) (path : Bytes) :
    (r.hddpath path).length = (r.fullpath path).length := by
  rw [Root.hddpath, Root.fullpath, List.length_append, List.length_append, r.length_hddRoot]

theorem length_fullpath (r : Root) (path : Bytes) :
    (r.fullpath path).length = r.rootdir.length + path.length + 4 := by
  have hfour : defaultSsd.length = 4 := by decide
  rw [Root.fullpath, Root.ssd, List.length_append, List.length_append, hfour]
  omega

theorem drain_spec {fuel : Nat} {s : ClockState A} {p q : List A} {view : Queue Bytes}
    (h : Represents s p q view) (hfuel : view.length < fuel) (before : List Bytes) :
    ∃ s' out, run (clockStep fuel) (s, before) (List.replicate view.length .remque) =
        some (s', before ++ out) ∧ out.Perm (names view) := by
  induction hn : view.length generalizing s p q view before with
  | zero =>
      obtain rfl := List.length_eq_zero_iff.mp hn
      exact ⟨s, [], by simp, List.Perm.refl _⟩
  | succ n ih =>
      have hne : view ≠ [] := List.ne_nil_of_length_eq_add_one hn
      obtain ⟨fname, rest, s₁, p₁, q₁, hremque, hs₁, hrep⟩ := remqueClock_spec h hne hfuel
      have hlen := length_of_remque hremque
      have hrest : rest.length = n := by omega
      obtain ⟨s', out, hrun, hperm⟩ := ih hrep (by omega) (before ++ [fname]) hrest
      refine ⟨s', fname :: out, ?_, ?_⟩
      · rw [List.replicate_succ, run_cons, clockStep, hs₁, Option.map_some, Option.bind_some, hrun,
          List.append_assoc, List.singleton_append]
      · exact (hperm.cons fname).trans (names_perm_of_remque hremque).symm

theorem mv_fits {build : Bytes → Option Bytes} {src dst : Bytes}
    (hfull : ssdPath r path = some (r.fullpath path))
    (hlen : src.length + dst.length + 4 < pathMax)
    (hbuild : build (r.fullpath path) =
      (do let cmd ← strcpy pathMax (cstr "mv "); concat cmd [src, cstr " ", dst])) :
    ∃ cmd, (ssdPath r path).bind build = some cmd ∧ cmd.length < pathMax := by
  have hcmd : (cstr "mv " ++ [src, cstr " ", dst].flatten).length < pathMax := by
    simp only [List.flatten_cons, List.flatten_nil, List.length_append, List.append_nil,
      show (cstr "mv ").length = 3 by decide, show (cstr " ").length = 1 by decide]
    omega
  refine ⟨_, ?_, hcmd⟩
  rw [hfull, Option.bind_some, hbuild]
  exact (build_eq_some_iff (by decide)).mpr ⟨rfl, hcmd⟩

/-- **The arrays hold a path** exactly if the root directory and the path have 250 bytes at most. -/
theorem pathLengths_iff (A : Type) [DecidableEq A] (r : Root) (path : Bytes) :
    Fits A r path ↔ r.rootdir.length + path.length + 4 < nameMax := by
  rw [← length_fullpath]
  constructor
  · exact Fits.name
  · intro hname
    have hlimit : nameMax + nameMax + 4 < pathMax := by decide
    have hhdd := length_hddpath r path
    have hfull : ssdPath r path = some (r.fullpath path) :=
      ssdPath_eq_some_iff.mpr ⟨rfl, by omega⟩
    refine ⟨hname, ⟨_, hfull, by omega⟩, ?_, ?_, ?_, ?_⟩
    · apply mv_fits hfull _ (by rw [ShellCommands.moveFileSsd, getHddPath_eq hfull]; rfl)
      omega
    · apply mv_fits hfull _ (by rw [ShellCommands.moveFileHdd, getHddPath_eq hfull]; rfl)
      omega
    · intro fuel s p q view elem junk hrep hfuel hfresh
      obtain ⟨s', p', q', hs', hrep'⟩ := insqueClock_spec hrep (Nat.lt_of_succ_lt hfuel) hfresh junk hname
      have hlen := length_insque_le (r.fullpath path) view
      have hroom : (insque (r.fullpath path) view).length < fuel := by omega
      obtain ⟨s'', out, hrun, hperm⟩ := drain_spec hrep' hroom []
      exact ⟨s', p', q', by rw [hfull, Option.bind_some, hs'], hrep', s'', out, hrun, hperm⟩
    · intro fuel s p q view fpath hrep hfuel hin hout
      obtain ⟨s', hs', hrep'⟩ := renameElem_fresh hrep hfuel hin hname hout
      exact ⟨s', by rw [hfull, Option.bind_some, hs'], hrep'⟩

/-- A name of 250 bytes below `/mnt` is within the limits and does not fit. -/
theorem not_pathLengths :
    Delivered (slash :: List.replicate 250 97) ∧
      ¬ Fits Nat ⟨cstr "/mnt", by decide⟩ (slash :: List.replicate 250 97) ∧
      insqueClock 1 0 ⟨0, 0, [], false⟩
        ((⟨cstr "/mnt", by decide⟩ : Root).fullpath (slash :: List.replicate 250 97))
        ClockState.empty = none := by
  refine ⟨⟨rfl, ?_, ?_⟩, ?_, ?_⟩
  · decide +kernel
  · decide +kernel
  · intro h
    have hname := h.name
    rw [length_fullpath] at hname
    revert hname
    decide +kernel
  · decide +kernel

end FusionFS.PathLengths
