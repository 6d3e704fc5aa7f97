import Mathlib.Data.List.Basic
import Mathlib.Logic.Function.Basic

/-!
# Followers behind links

A leader puts every write on a number of links, and at the end of each link a follower applies what
it takes off, in order. Links may end at the same follower. However far the followers are behind, a
key of which nothing is under way to a follower has there what the leader has written last.
-/

namespace Follow

universe u v w x

variable {ι : Type u} {ρ : Type v} {κ : Type w} {ν : Type x}

/-- What the followers may rely on, with the leader's last writes and what is under way. -/
structure Follows (host : ι → ρ) (active : ι → Prop) (latest : κ → ν) (pending : ι → List (κ × ν))
    (copy : ρ → κ → ν) : Prop where
  last : ∀ i, active i → ∀ front k v back, pending i = front ++ (k, v) :: back →
    (∀ e ∈ back, e.1 ≠ k) → v = latest k
  settled : ∀ i, active i → ∀ k,
    (∀ j, active j → host j = host i → ∀ e ∈ pending j, e.1 ≠ k) → copy (host i) k = latest k

variable {host : ι → ρ} {active : ι → Prop} {latest : κ → ν} {pending : ι → List (κ × ν)}
  {copy : ρ → κ → ν}

/-- With nothing under way, every follower has everything. -/
theorem Follows.copy_eq (h : Follows host active latest pending copy)
    (hempty : ∀ j, active j → pending j = []) {i : ι} (hi : active i) :
    copy (host i) = latest := by
  funext k
  apply h.settled i hi k
  intro j hj _ e he
  rw [hempty j hj] at he
  cases he

variable [DecidableEq κ]

theorem Follows.send (h : Follows host active latest pending copy) (k : κ) (v : ν)
    {pending' : ι → List (κ × ν)} (hsent : ∀ i, active i → pending' i = pending i ++ [(k, v)]) :
    Follows host active (Function.update latest k v) pending' copy where
  last i hi front k' v' back heq hback := by
    rw [hsent i hi] at heq
    rcases List.eq_nil_or_concat back with rfl | ⟨back, e, rfl⟩
    · obtain ⟨-, hlast⟩ := List.append_inj' heq rfl
      obtain ⟨rfl, rfl⟩ := Prod.mk.inj (List.cons.inj hlast).1
      rw [Function.update_self]
    · rw [List.concat_eq_append] at heq hback
      have hassoc : pending i ++ [(k, v)] = (front ++ (k', v') :: back) ++ [e] := by
        rw [heq]
        simp
      obtain ⟨hfront, hlast⟩ := List.append_inj' hassoc rfl
      have hne : k ≠ k' := by
        have hmem := hback e (List.mem_append_right back (List.mem_singleton_self e))
        rwa [← (List.cons.inj hlast).1] at hmem
      rw [Function.update_of_ne hne.symm]
      exact h.last i hi front k' v' back hfront fun x hx => hback x (List.mem_append_left _ hx)
  settled i hi k' hnone := by
    have hne : k ≠ k' := by
      apply hnone i hi rfl (k, v)
      rw [hsent i hi]
      exact List.mem_append_right _ (List.mem_singleton_self _)
    rw [Function.update_of_ne hne.symm]
    apply h.settled i hi k'
    intro j hj hhost e he
    apply hnone j hj hhost e
    rw [hsent j hj]
    exact List.mem_append_left _ he

variable [DecidableEq ι] [DecidableEq ρ]

theorem Follows.receive (h : Follows host active latest pending copy) {i : ι} (hi : active i)
    {k : κ} {v : ν} {rest : List (κ × ν)} (hpending : pending i = (k, v) :: rest) :
    Follows host active latest (Function.update pending i rest)
      (Function.update copy (host i) (Function.update (copy (host i)) k v)) where
  last j hj front k' v' back heq hback := by
    by_cases hji : j = i
    · subst hji
      rw [Function.update_self] at heq
      exact h.last j hj ((k, v) :: front) k' v' back (by rw [hpending, heq, List.cons_append]) hback
    · rw [Function.update_of_ne hji] at heq
      exact h.last j hj front k' v' back heq hback
  settled j hj k' hnone := by
    by_cases hhost : host j = host i
    · rw [hhost, Function.update_self]
      have hrest : ∀ e ∈ rest, e.1 ≠ k' := by
        intro e he
        apply hnone i hi hhost.symm e
        rwa [Function.update_self]
      by_cases hk : k' = k
      · subst hk
        rw [Function.update_self]
        exact h.last i hi [] k' v rest hpending hrest
      · -- the write is to another key, and nothing was under way for this one before
        rw [Function.update_of_ne hk]
        apply h.settled i hi k'
        intro m hm hmi e he
        by_cases hmeq : m = i
        · subst hmeq
          rw [hpending] at he
          rcases List.mem_cons.mp he with rfl | he
          · exact fun heq => hk heq.symm
          · exact hrest e he
        · apply hnone m hm (hmi.trans hhost.symm) e
          rwa [Function.update_of_ne hmeq]
    · rw [Function.update_of_ne hhost]
      apply h.settled j hj k'
      intro m hm hmj e he
      apply hnone m hm hmj e
      rwa [Function.update_of_ne]
      rintro rfl
      exact hhost hmj.symm

end Follow
