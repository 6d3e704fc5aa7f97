import FusionFS.Lib.Run
import Mathlib.Logic.Function.Basic

/-!
# Interleaved processes

Processes with local states take turns on a shared one. A schedule is the list of the processes whose
turn it is, and a turn changes the shared state and the local state of one process.
-/

namespace Interleave

variable {ι σ τ : Type*}

structure World (ι σ τ : Type*) where
  shared : σ
  procs : ι → τ

variable [DecidableEq ι] (prog : ι → σ → τ → Option (σ × τ))

def turn (w : World ι σ τ) (i : ι) : Option (World ι σ τ) :=
  (prog i w.shared (w.procs i)).map fun r => ⟨r.1, Function.update w.procs i r.2⟩

variable {prog} {w w' : World ι σ τ} {i : ι}

theorem turn_cases (h : turn prog w i = some w') : ∃ s t, prog i w.shared (w.procs i) = some (s, t) ∧
    w'.shared = s ∧ w'.procs i = t ∧ ∀ j, j ≠ i → w'.procs j = w.procs j := by
  obtain ⟨⟨s, t⟩, hprog, rfl⟩ := Option.map_eq_some_iff.mp h
  refine ⟨s, t, hprog, rfl, Function.update_self .., fun j hj => ?_⟩
  exact Function.update_of_ne hj ..

end Interleave
