import Mathlib.Data.List.Basic

/-!
# Logs of accesses

What has been put into a cache and what has left it, newest first: how often an entry has been
accessed since it last came in, and when it was accessed last.
-/

namespace AccessLog

universe u

variable {α : Type u} [DecidableEq α]

inductive Event (α : Type u) where
  | access (a : α)
  | leave (a : α)

/-- The accesses of an entry since it last left. -/
def accesses (a : α) : List (Event α) → Nat
  | [] => 0
  | .access b :: log => if b = a then accesses a log + 1 else accesses a log
  | .leave b :: log => if b = a then 0 else accesses a log

/-- The time of the last access of an entry, which counts all events from one on. -/
def lastAccess (a : α) : List (Event α) → Nat
  | [] => 0
  | .access b :: log => if b = a then log.length + 1 else lastAccess a log
  | .leave _ :: log => lastAccess a log

variable {a b : α} {log : List (Event α)}

theorem lastAccess_le (a : α) (log : List (Event α)) : lastAccess a log ≤ log.length := by
  induction log with
  | nil => exact Nat.le_refl 0
  | cons e log ih =>
      cases e with
      | access b =>
          unfold lastAccess
          split
          · exact Nat.le_refl _
          · exact Nat.le_succ_of_le ih
      | leave b => exact Nat.le_succ_of_le ih

@[simp]
theorem accesses_access_self : accesses a (.access a :: log) = accesses a log + 1 := if_pos rfl

theorem accesses_access_of_ne (h : b ≠ a) : accesses a (.access b :: log) = accesses a log :=
  if_neg h

@[simp]
theorem accesses_leave_self : accesses a (.leave a :: log) = 0 := if_pos rfl

theorem accesses_leave_of_ne (h : b ≠ a) : accesses a (.leave b :: log) = accesses a log := if_neg h

@[simp]
theorem lastAccess_access_self : lastAccess a (.access a :: log) = log.length + 1 := if_pos rfl

theorem lastAccess_access_of_ne (h : b ≠ a) :
    lastAccess a (.access b :: log) = lastAccess a log := if_neg h

@[simp]
theorem lastAccess_leave : lastAccess a (.leave b :: log) = lastAccess a log := rfl

/-- The distinct entries a cache holds after a log: those accessed since they last left. -/
structure Holds (names : List α) (log : List (Event α)) : Prop where
  nodup : names.Nodup
  mem_iff : ∀ a, a ∈ names ↔ 0 < accesses a log

namespace Holds

variable {names names' : List α}

theorem nil : Holds ([] : List α) [] := ⟨List.nodup_nil, by simp [accesses]⟩

/-- An access keeps the entries, or adds one, in whatever order. -/
theorem access (h : Holds names log) (hperm : names'.Perm (a :: names.filter (· ≠ a))) :
    Holds names' (.access a :: log) := by
  constructor
  · refine hperm.nodup_iff.mpr (List.nodup_cons.mpr ⟨?_, h.nodup.filter _⟩)
    intro hm
    exact of_decide_eq_true (List.mem_filter.mp hm).2 rfl
  · intro b
    rw [hperm.mem_iff]
    by_cases hb : a = b
    · subst hb
      simp
    · rw [accesses_access_of_ne hb, ← h.mem_iff]
      simp [Ne.symm hb]

theorem leave (h : Holds names log) (a : α) :
    Holds (names.filter (· ≠ a)) (.leave a :: log) := by
  constructor
  · exact h.nodup.filter _
  · intro b
    by_cases hb : a = b
    · subst hb
      simp
    · rw [accesses_leave_of_ne hb, ← h.mem_iff]
      simp [Ne.symm hb]

end Holds

end AccessLog
