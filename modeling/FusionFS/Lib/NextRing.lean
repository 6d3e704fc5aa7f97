import Mathlib.Data.List.Nodup
import Mathlib.Data.List.Rotate

/-!
# Rings of cells with one link

Cells that each know the next one, around and around. A list of cells is such a ring when taking the
next of every cell rotates the list, and then any rotation of the list is the same ring. New cells go in
behind a cell, and are linked to each other before.
-/

namespace NextRing

variable {κ : Type*} {next next' : κ → κ} {l p q : List κ} {a x y : κ}

/-- The next cells of a ring are the cells of the ring. -/
def Closed (next : κ → κ) (l : List κ) : Prop := l.map next = l.rotate 1

theorem closed_cons_iff : Closed next (x :: l) ↔ next x :: l.map next = l ++ [x] := by
  rw [Closed, List.map_cons, List.rotate_cons_succ, List.rotate_zero]

theorem Closed.rotate (h : Closed next (p ++ q)) : Closed next (q ++ p) := by
  have hrot := congrArg (List.rotate · p.length) h
  rw [← List.map_rotate, List.rotate_append_length_eq, List.rotate_rotate, Nat.add_comm,
    ← List.rotate_rotate, List.rotate_append_length_eq] at hrot
  exact hrot

theorem Closed.next_eq (h : Closed next (x :: y :: l)) : next x = y := by
  rw [closed_cons_iff] at h
  exact (List.cons_eq_cons.mp h).1

/-- Steps from the first cell lead to the others. -/
theorem Closed.getElem?_iterate (h : Closed next l) (hhead : l.head? = some a) :
    ∀ n, n < l.length → l[n]? = some (next^[n] a) := by
  intro n
  induction n with
  | zero => exact fun _ => List.head?_eq_getElem?.symm.trans hhead
  | succ n ih =>
      intro hn
      have hstep : (l.map next)[n]? = some (next (next^[n] a)) := by
        rw [List.getElem?_map, ih (by omega), Option.map_some]
      rw [h, List.getElem?_rotate (by omega), Nat.mod_eq_of_lt hn] at hstep
      rw [hstep, Function.iterate_succ_apply']

/-! ### New cells -/

/-- Cells that are allocated one after another, each linked to the one behind it: `n` links from `a`. -/
def linkRow (next : Nat → Nat) (a : Nat) : Nat → Nat → Nat
  | 0 => next
  | n + 1 => linkRow (Function.update next a (a + 1)) (a + 1) n

theorem linkRow_apply {next : Nat → Nat} {a n x : Nat} :
    linkRow next a n x = if a ≤ x ∧ x < a + n then x + 1 else next x := by
  induction n generalizing next a with
  | zero => rw [linkRow, if_neg (by omega)]
  | succ n ih =>
      rw [linkRow, ih]
      by_cases hx : x = a
      · rw [hx, if_neg (by omega), Function.update_self, if_pos (by omega)]
      · rw [Function.update_of_ne hx]
        exact if_congr (by omega) rfl rfl

theorem map_row {f : Nat → Nat} {a n v : Nat} (hrow : ∀ x, a ≤ x → x < a + n → f x = x + 1)
    (hlast : f (a + n) = v) : (List.range' a (n + 1)).map f = List.range' (a + 1) n ++ [v] := by
  have hmap : (List.range' a n).map f = (List.range' a n).map (1 + ·) := by
    refine List.map_congr_left fun x hx => ?_
    rw [List.mem_range'_1] at hx
    rw [hrow x hx.1 hx.2, Nat.add_comm]
  rw [List.range'_concat, Nat.one_mul, List.map_append, hmap, List.map_add_range', Nat.add_comm 1,
    List.map_singleton, hlast]

/-- A row of `n + 1` new cells by itself. -/
theorem closed_row {next : Nat → Nat} {a n : Nat} :
    Closed (Function.update (linkRow next a n) (a + n) a) (List.range' a (n + 1)) := by
  rw [Closed, map_row (fun x hx hlt => ?_) (Function.update_self ..)]
  · rw [List.range'_succ, List.rotate_cons_succ, List.rotate_zero]
  · rw [Function.update_of_ne (by omega), linkRow_apply, if_pos ⟨hx, hlt⟩]

/-- **Insertion** of a row of `n + 1` new cells behind a cell. -/
theorem Closed.insert {next : Nat → Nat} {a n x : Nat} {l : List Nat} (h : Closed next (x :: l))
    (hnodup : (x :: l).Nodup) (hnew : ∀ y ∈ x :: l, y < a) :
    Closed (Function.update (Function.update (linkRow next a n) (a + n) (next x)) x a)
      (x :: (List.range' a (n + 1) ++ l)) := by
  have hx := hnew x List.mem_cons_self
  have hrow : (List.range' a (n + 1)).map
      (Function.update (Function.update (linkRow next a n) (a + n) (next x)) x a) =
        List.range' (a + 1) n ++ [next x] := by
    refine map_row (fun y hy hlt => ?_) ?_
    · rw [Function.update_of_ne (by omega), Function.update_of_ne (by omega), linkRow_apply,
        if_pos ⟨hy, hlt⟩]
    · rw [Function.update_of_ne (by omega), Function.update_self]
  have hold : l.map (Function.update (Function.update (linkRow next a n) (a + n) (next x)) x a) =
      l.map next := by
    refine List.map_congr_left fun y hy => ?_
    have hya := hnew y (List.mem_cons_of_mem x hy)
    rw [Function.update_of_ne (ne_of_mem_of_not_mem hy (List.nodup_cons.mp hnodup).1),
      Function.update_of_ne (by omega), linkRow_apply, if_neg (by omega)]
  rw [closed_cons_iff] at h ⊢
  calc _ = a :: ((List.range' (a + 1) n ++ [next x]) ++ l.map next) := by
        rw [Function.update_self, List.map_append, hrow, hold]
    _ = List.range' a (n + 1) ++ (next x :: l.map next) := by
        rw [List.range'_succ, List.append_assoc, List.singleton_append, List.cons_append]
    _ = List.range' a (n + 1) ++ l ++ [x] := by rw [h, List.append_assoc]

end NextRing
