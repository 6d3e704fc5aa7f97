import Mathlib.Data.List.Chain
import Mathlib.Data.List.Nodup

/-!
# Circular doubly linked lists

Two partial maps give the successor and the predecessor of a cell. A list of cells is a ring when
following successors visits it in order and comes back to its start, and predecessors undo that.
Inserting and removing are stated by what the new maps must agree with, not by the order in which a
program writes the pointers.
-/

namespace Ring

universe u

variable {A : Type u}

structure Links (A : Type u) where
  next : A → Option A
  prev : A → Option A

def Linked (k : Links A) (x y : A) : Prop := k.next x = some y ∧ k.prev y = some x

/-- The path through the list, closed up to its first cell. -/
def Cycle (k : Links A) : List A → Prop
  | [] => True
  | a :: l => List.IsChain (Linked k) (a :: (l ++ [a]))

variable {k k' : Links A}

/-- A ring may be read from any of its cells. -/
theorem Cycle.rotate {p q : List A} (h : Cycle k (p ++ q)) : Cycle k (q ++ p) := by
  cases p with
  | nil => simpa using h
  | cons a p =>
      cases q with
      | nil => simpa using h
      | cons b q =>
          have h' : List.IsChain (Linked k) ((a :: p) ++ b :: (q ++ [a])) := by
            simpa [Cycle] using h
          obtain ⟨hleft, hright⟩ := List.isChain_split.mp h'
          have hgoal : List.IsChain (Linked k) ((b :: q) ++ a :: (p ++ [b])) :=
            List.isChain_split.mpr ⟨by simpa using hright, by simpa using hleft⟩
          simpa [Cycle] using hgoal

/-- A path is unchanged by links that agree on the successors of all but its last cell and on the
predecessors of all but its first. -/
theorem isChain_of_agree {l : List A} (h : List.IsChain (Linked k) l)
    (hnext : ∀ x ∈ l.dropLast, k'.next x = k.next x)
    (hprev : ∀ x ∈ l.tail, k'.prev x = k.prev x) : List.IsChain (Linked k') l := by
  induction l with
  | nil => exact List.isChain_nil
  | cons a l ih =>
      cases l with
      | nil => exact List.isChain_singleton a
      | cons b l =>
          rw [List.isChain_cons_cons] at h ⊢
          obtain ⟨⟨hab, hba⟩, hrest⟩ := h
          refine ⟨⟨?_, ?_⟩, ih hrest ?_ ?_⟩
          · rw [hnext a (by simp), hab]
          · rw [hprev b (by simp), hba]
          · intro x hx
            exact hnext x (by
              rw [List.dropLast_cons_cons]
              exact List.mem_cons_of_mem _ hx)
          · intro x hx
            exact hprev x (by simpa using Or.inr hx)

theorem cycle_of_isChain {x y : A} {l : List A} (hlast : (x :: l).getLast? = some y)
    (h : List.IsChain (Linked k) (x :: l)) (hlink : Linked k y x) : Cycle k (x :: l) := by
  rw [Cycle, ← List.cons_append, List.isChain_append]
  refine ⟨h, List.isChain_singleton x, ?_⟩
  intro u hu v hv
  rw [hlast] at hu
  cases hu
  cases hv
  exact hlink

theorem Cycle.isChain {l : List A} (h : Cycle k l) : List.IsChain (Linked k) l := by
  cases l with
  | nil => exact List.isChain_nil
  | cons a l =>
      rw [Cycle, ← List.cons_append] at h
      exact (List.isChain_append.mp h).1

theorem Cycle.last_linked_head {x y : A} {l : List A} (h : Cycle k (x :: l))
    (hlast : (x :: l).getLast? = some y) : Linked k y x := by
  rw [Cycle, ← List.cons_append, List.isChain_append] at h
  exact h.2.2 y (by simp [hlast]) x (by simp)

/-- **Removal.** Linking the neighbours of the first cell to each other takes it out of the ring. -/
theorem Cycle.unlink {e x y : A} {l : List A} (h : Cycle k (e :: x :: l))
    (hnodup : (e :: x :: l).Nodup) (hlast : (x :: l).getLast? = some y)
    (hlink : Linked k' y x) (hnext : ∀ u, u ≠ e → u ≠ y → k'.next u = k.next u)
    (hprev : ∀ u, u ≠ e → u ≠ x → k'.prev u = k.prev u) : Cycle k' (x :: l) := by
  obtain ⟨hmem, hnd⟩ := List.nodup_cons.mp hnodup
  have hpath : List.IsChain (Linked k) (x :: l) := h.isChain.tail
  have hsnoc : (x :: l).dropLast ++ [y] = x :: l := List.dropLast_append_getLast? y hlast
  refine cycle_of_isChain hlast (isChain_of_agree hpath ?_ ?_) hlink
  · intro u hu
    have hul : u ∈ x :: l := List.dropLast_subset _ hu
    refine hnext u (fun heq => hmem (heq ▸ hul)) ?_
    rintro rfl
    rw [← hsnoc] at hnd
    exact (List.nodup_append.mp hnd).2.2 u hu u (by simp) rfl
  · intro u hu
    have hul : u ∈ l := hu
    refine hprev u (fun heq => hmem (heq ▸ List.mem_cons_of_mem _ hul)) ?_
    rintro rfl
    exact (List.nodup_cons.mp hnd).1 hul

/-- **Insertion.** A new cell linked between the last cell and the first joins the ring. -/
theorem Cycle.insert {e x y : A} {l : List A} (h : Cycle k (x :: l)) (hnodup : (x :: l).Nodup)
    (hfresh : e ∉ x :: l) (hlast : (x :: l).getLast? = some y) (hfront : Linked k' e x)
    (hback : Linked k' y e) (hnext : ∀ u, u ≠ e → u ≠ y → k'.next u = k.next u)
    (hprev : ∀ u, u ≠ e → u ≠ x → k'.prev u = k.prev u) : Cycle k' (e :: x :: l) := by
  have hsnoc : (x :: l).dropLast ++ [y] = x :: l := List.dropLast_append_getLast? y hlast
  have hpath : List.IsChain (Linked k') (x :: l) := by
    refine isChain_of_agree h.isChain ?_ ?_
    · intro u hu
      refine hnext u (fun heq => hfresh (heq ▸ List.dropLast_subset _ hu)) ?_
      rintro rfl
      rw [← hsnoc] at hnodup
      exact (List.nodup_append.mp hnodup).2.2 u hu u (by simp) rfl
    · intro u hu
      have hul : u ∈ l := hu
      refine hprev u (fun heq => hfresh (heq ▸ List.mem_cons_of_mem _ hul)) ?_
      rintro rfl
      exact (List.nodup_cons.mp hnodup).1 hul
  refine cycle_of_isChain (y := y) ?_ (List.isChain_cons_cons.mpr ⟨hfront, hpath⟩) hback
  rw [List.getLast?_cons_cons, hlast]

/-- The cells met by following `n` successors. -/
def walk (next : A → Option A) : Nat → A → Option (List A)
  | 0, _ => some []
  | n + 1, a => (next a).bind fun b => (walk next n b).map (a :: ·)

theorem walk_of_isChain {l rest : List A} {a : A}
    (h : List.IsChain (Linked k) (a :: (l ++ rest))) (hrest : rest ≠ []) :
    walk k.next (l.length + 1) a = some (a :: l) := by
  induction l generalizing a with
  | nil =>
      cases rest with
      | nil => exact absurd rfl hrest
      | cons b rest =>
          have hab := (List.isChain_cons_cons.mp h).1
          simp [walk, hab.1]
  | cons b l ih =>
      obtain ⟨hab, hrest'⟩ := List.isChain_cons_cons.mp h
      rw [List.length_cons, walk, hab.1, Option.bind_some, ih hrest']
      rfl

theorem Cycle.walk_eq {l : List A} {a : A} (h : Cycle k (a :: l)) :
    walk k.next (a :: l).length a = some (a :: l) :=
  walk_of_isChain h (by simp)

end Ring
