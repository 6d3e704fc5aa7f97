import Mathlib.Data.List.Basic
import Mathlib.Data.List.Nodup

/-!
# What has been used most recently

A use moves an element to the front. A store of bounded size that drops from the other end always
holds the first elements of the unbounded list, whatever its size.
-/

namespace Recency

universe u

variable {κ : Type u} [DecidableEq κ]

def touch (k : κ) (l : List κ) : List κ := k :: l.erase k

/-- The elements of a history, each once, by their last use. A history begins with what came last. -/
def recency (hist : List κ) : List κ := hist.foldr touch []

variable {k : κ} {l hist : List κ}

@[simp]
theorem recency_cons : recency (k :: hist) = touch k (recency hist) := rfl

theorem mem_touch {a : κ} : a ∈ touch k l ↔ a = k ∨ a ∈ l := by
  rw [touch, List.mem_cons]
  by_cases ha : a = k
  · simp [ha]
  · rw [List.mem_erase_of_ne ha]

theorem mem_recency {a : κ} : a ∈ recency hist ↔ a ∈ hist := by
  induction hist with
  | nil => rfl
  | cons b hist ih => rw [recency_cons, mem_touch, ih, List.mem_cons]

theorem nodup_touch (h : l.Nodup) : (touch k l).Nodup :=
  List.nodup_cons.mpr ⟨h.not_mem_erase, h.erase k⟩

theorem nodup_recency (hist : List κ) : (recency hist).Nodup := by
  induction hist with
  | nil => exact List.nodup_nil
  | cons a hist ih => exact nodup_touch ih

theorem erase_take (k : κ) (l : List κ) (n : Nat) :
    (l.erase k).take n = ((l.take (n + 1)).erase k).take n := by
  induction l generalizing n with
  | nil => simp
  | cons a l ih =>
      rw [List.take_succ_cons]
      by_cases ha : a = k
      · subst ha
        rw [List.erase_cons_head, List.erase_cons_head, List.take_take, Nat.min_self]
      · rw [List.erase_cons_tail (by simpa using ha), List.erase_cons_tail (by simpa using ha)]
        cases n with
        | zero => rfl
        | succ n => rw [List.take_succ_cons, List.take_succ_cons, ih n]

/-- Using an element acts on the bounded store as on the unbounded list. -/
theorem take_touch {n : Nat} (hn : 0 < n) : (touch k l).take n = (touch k (l.take n)).take n := by
  cases n with
  | zero => cases hn
  | succ n =>
      calc (touch k l).take (n + 1) = k :: (l.erase k).take n := List.take_succ_cons
        _ = k :: ((l.take (n + 1)).erase k).take n := by rw [erase_take]
        _ = (touch k (l.take (n + 1))).take (n + 1) := List.take_succ_cons.symm

/-- An element in the store can be used without anything being dropped. -/
theorem take_touch_of_mem {n : Nat} (hk : k ∈ l.take n) :
    (touch k l).take n = touch k (l.take n) := by
  have hpos : 0 < n := by
    rcases n.eq_zero_or_pos with rfl | hpos
    · cases hk
    · exact hpos
  rw [take_touch hpos]
  apply List.take_of_length_le
  have hlen := List.length_erase_of_mem hk
  have hle := List.length_take_le n l
  have hmem := List.length_pos_of_mem hk
  rw [touch, List.length_cons, hlen]
  omega

/-- An element not in the store pushes out what is behind the first others. -/
theorem take_touch_of_notMem {n : Nat} (hn : 0 < n) (hk : k ∉ l.take n) :
    (touch k l).take n = (k :: l.take n).take n := by
  rw [take_touch hn, touch, List.erase_of_not_mem hk]

end Recency
