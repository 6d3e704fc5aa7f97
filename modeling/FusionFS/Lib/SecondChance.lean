import Mathlib.Data.List.Perm.Basic
import Mathlib.Data.List.Nodup

/-!
# The second-chance queue

A first-in first-out queue whose entries carry one reference bit. A touched entry gets its bit set;
the victim is the first entry found without it, and every entry passed over on the way loses its bit
and goes to the back.
-/

namespace SecondChance

universe u

variable {α : Type u}

abbrev Queue (α : Type u) := List (α × Bool)

def names (q : Queue α) : List α := q.map Prod.fst

@[simp]
theorem names_nil : names ([] : Queue α) = [] := rfl

@[simp]
theorem names_cons (e : α × Bool) (q : Queue α) : names (e :: q) = e.1 :: names q := rfl

@[simp]
theorem names_append (p q : Queue α) : names (p ++ q) = names p ++ names q := List.map_append

/-- Pass over marked entries, at most `fuel` entries in all, and take out the first unmarked one. -/
def evict : Nat → Queue α → Option (α × Queue α)
  | 0, _ => none
  | _ + 1, [] => none
  | _ + 1, (a, false) :: q => some (a, q)
  | fuel + 1, (a, true) :: q => evict fuel (q ++ [(a, false)])

/-- The victim and what is left: one full turn clears every bit, so one more look is enough. -/
def remque (q : Queue α) : Option (α × Queue α) := evict (q.length + 1) q

/-- A turn over marked entries clears them. -/
theorem evict_add_marked (fuel : Nat) (p q : Queue α) (hp : ∀ e ∈ p, e.2 = true) :
    evict (fuel + p.length) (p ++ q)
      = evict fuel (q ++ p.map fun e => (e.1, false)) := by
  induction p generalizing q with
  | nil => simp
  | cons e p ih =>
      obtain ⟨a, bit⟩ := e
      have hbit : bit = true := hp (a, bit) List.mem_cons_self
      subst hbit
      rw [List.length_cons, ← Nat.add_assoc, List.cons_append, evict, List.append_assoc,
        ih (q ++ [(a, false)]) fun e he => hp e (List.mem_cons_of_mem _ he)]
      simp

/-- A queue starts with a run of marked entries, which ends it or stops at an unmarked one. -/
theorem exists_marked_prefix (q : Queue α) : ∃ p rest, q = p ++ rest ∧ (∀ e ∈ p, e.2 = true) ∧
    (rest = [] ∨ ∃ a rest', rest = (a, false) :: rest') := by
  induction q with
  | nil => exact ⟨[], [], rfl, by simp, Or.inl rfl⟩
  | cons e q ih =>
      obtain ⟨a, bit⟩ := e
      cases bit with
      | false => exact ⟨[], (a, false) :: q, rfl, by simp, Or.inr ⟨a, q, rfl⟩⟩
      | true =>
          obtain ⟨p, rest, rfl, hp, hrest⟩ := ih
          refine ⟨(a, true) :: p, rest, rfl, ?_, hrest⟩
          intro e he
          rcases List.mem_cons.mp he with rfl | he
          · rfl
          · exact hp e he

/-- The search ends after at most one look more than the queue is long. -/
theorem evict_isSome {fuel : Nat} {q : Queue α} (hne : q ≠ []) (hfuel : q.length < fuel) :
    (evict fuel q).isSome := by
  obtain ⟨p, rest, rfl, hp, hrest⟩ := exists_marked_prefix q
  rw [List.length_append] at hfuel
  obtain ⟨extra, rfl⟩ : ∃ extra, fuel = (extra + 1) + p.length := ⟨fuel - p.length - 1, by omega⟩
  rw [evict_add_marked (extra + 1) p rest hp]
  rcases hrest with rfl | ⟨a, rest', rfl⟩
  · -- every bit was set: the first entry comes round again, now unmarked
    cases p with
    | nil => exact absurd rfl hne
    | cons e p => rfl
  · rfl

theorem evict_singleton {e : α × Bool} {fuel : Nat} {r : α × Queue α}
    (h : evict fuel [e] = some r) : r = (e.1, []) := by
  obtain ⟨a, bit⟩ := e
  match fuel, bit, h with
  | fuel + 1, false, h => exact (Option.some.inj h).symm
  | fuel + 2, true, h => exact (Option.some.inj h).symm

theorem remque_isSome {q : Queue α} (hne : q ≠ []) : (remque q).isSome :=
  evict_isSome hne (Nat.lt_succ_self _)

@[simp]
theorem remque_nil : remque ([] : Queue α) = none := rfl

theorem evict_mono {fuel more : Nat} {q : Queue α} {r : α × Queue α} (h : evict fuel q = some r)
    (hle : fuel ≤ more) : evict more q = some r := by
  induction fuel generalizing more q with
  | zero => cases h
  | succ fuel ih =>
      obtain ⟨extra, rfl⟩ : ∃ extra, more = extra + 1 := ⟨more - 1, by omega⟩
      match q, h with
      | (a, false) :: q, h => exact h
      | (a, true) :: q, h => exact ih (q := q ++ [(a, false)]) h (by omega)

/-- The names of the queue are the victim's and those that are left. -/
theorem names_perm_of_evict {fuel : Nat} {q rest : Queue α} {a : α}
    (h : evict fuel q = some (a, rest)) : (names q).Perm (a :: names rest) := by
  induction fuel generalizing q with
  | zero => cases h
  | succ fuel ih =>
      match q, h with
      | (b, false) :: q, h =>
          cases h
          exact List.Perm.refl _
      | (b, true) :: q, h =>
          have hrot := ih h
          rw [names_append] at hrot
          exact (List.perm_append_singleton b (names q)).symm.trans hrot

theorem names_perm_of_remque {q rest : Queue α} {a : α} (h : remque q = some (a, rest)) :
    (names q).Perm (a :: names rest) :=
  names_perm_of_evict h

theorem length_of_remque {q rest : Queue α} {a : α} (h : remque q = some (a, rest)) :
    q.length = rest.length + 1 := by
  simpa [names] using (names_perm_of_remque h).length_eq

/-! ### Where the hand does not come -/

/-- A marked entry of the name with at least `k` unmarked ones in front of it. -/
def Ahead (k : Nat) (a : α) (q : Queue α) : Prop :=
  ∃ p rest, q = p ++ (a, true) :: rest ∧ k ≤ p.countP fun e => !e.2

theorem ahead_zero_iff {a : α} {q : Queue α} : Ahead 0 a q ↔ (a, true) ∈ q := by
  constructor
  · rintro ⟨p, rest, rfl, -⟩
    exact List.mem_append_right p List.mem_cons_self
  · intro hmem
    obtain ⟨p, rest, hq⟩ := List.append_of_mem hmem
    exact ⟨p, rest, hq, Nat.zero_le _⟩

theorem ahead_cons_iff {k : Nat} {a b : α} {bit : Bool} {q : Queue α} :
    Ahead k a ((b, bit) :: q) ↔
      (k = 0 ∧ (b, bit) = (a, true)) ∨ Ahead (k - if bit then 0 else 1) a q := by
  constructor
  · rintro ⟨p, rest, hq, hle⟩
    cases p with
    | nil => exact .inl ⟨Nat.le_zero.mp hle, (List.cons_eq_cons.mp hq).1⟩
    | cons e p =>
        obtain ⟨rfl, rfl⟩ := List.cons_eq_cons.mp hq
        refine .inr ⟨p, rest, rfl, ?_⟩
        rw [List.countP_cons] at hle
        cases bit <;> simp_all
  · rintro (⟨rfl, he⟩ | ⟨p, rest, rfl, hle⟩)
    · exact ⟨[], q, by rw [he, List.nil_append], Nat.zero_le _⟩
    · refine ⟨(b, bit) :: p, rest, rfl, ?_⟩
      rw [List.countP_cons]
      cases bit <;> simp_all

theorem ahead_marked_append {k : Nat} {a : α} {p q : Queue α} (hp : ∀ e ∈ p, e.2 = true) :
    Ahead (k + 1) a (p ++ q) ↔ Ahead (k + 1) a q := by
  induction p with
  | nil => rfl
  | cons e p ih =>
      obtain ⟨b, bit⟩ := e
      have hbit : bit = true := hp (b, bit) List.mem_cons_self
      subst hbit
      have hrest := ih fun e he => hp e (List.mem_cons_of_mem _ he)
      rw [List.cons_append, ahead_cons_iff, if_pos rfl, Nat.sub_zero, hrest]
      exact or_iff_right fun h => absurd h.1 (Nat.succ_ne_zero k)

theorem not_ahead_unmarked {k : Nat} {a : α} {q : Queue α} (hq : ∀ e ∈ q, e.2 = false) :
    ¬ Ahead k a q := by
  rintro ⟨p, rest, rfl, -⟩
  cases hq (a, true) (List.mem_append_right p List.mem_cons_self)

theorem ahead_append_unmarked {k : Nat} {a : α} {p q : Queue α} (hq : ∀ e ∈ q, e.2 = false) :
    Ahead k a (p ++ q) ↔ Ahead k a p := by
  induction p generalizing k with
  | nil => exact iff_of_false (not_ahead_unmarked hq) (not_ahead_unmarked nofun)
  | cons e p ih => rw [List.cons_append, ahead_cons_iff, ahead_cons_iff, ih]

theorem remque_cases {q rest : Queue α} {a : α} (h : remque q = some (a, rest)) :
    ∃ p, (∀ e ∈ p, e.2 = true) ∧
      ((∃ r, q = p ++ (a, false) :: r ∧ rest = r ++ p.map fun e => (e.1, false)) ∨
        q = (a, true) :: p ∧ rest = p.map fun e => (e.1, false)) := by
  obtain ⟨p, tail, rfl, hp, htail⟩ := exists_marked_prefix q
  have hfuel : (p ++ tail).length + 1 = (tail.length + 1) + p.length := by
    rw [List.length_append]
    omega
  rw [remque, hfuel, evict_add_marked _ p tail hp] at h
  rcases htail with rfl | ⟨b, r, rfl⟩
  · cases p with
    | nil => cases h
    | cons e p =>
        obtain ⟨b, bit⟩ := e
        obtain ⟨rfl, rfl⟩ := Prod.mk.inj (Option.some.inj h)
        have hbit : bit = true := hp (b, bit) List.mem_cons_self
        subst hbit
        refine ⟨p, fun e he => hp e (List.mem_cons_of_mem _ he), .inr ⟨?_, rfl⟩⟩
        rw [List.append_nil]
  · obtain ⟨rfl, rfl⟩ := Prod.mk.inj (Option.some.inj h)
    exact ⟨p, hp, .inl ⟨r, rfl, rfl⟩⟩

/-- A victim costs one of the unmarked entries in front. -/
theorem ahead_remque_iff {k : Nat} {a b : α} {q rest : Queue α} (h : remque q = some (b, rest)) :
    Ahead k a rest ↔ Ahead (k + 1) a q := by
  obtain ⟨p, hp, ⟨r, rfl, rfl⟩ | ⟨rfl, rfl⟩⟩ := remque_cases h
  · rw [ahead_append_unmarked (by simp), ahead_marked_append hp, ahead_cons_iff]
    simp
  · have hnone : ¬ Ahead (k + 1) a p := by
      rw [← List.append_nil p, ahead_marked_append hp]
      exact not_ahead_unmarked nofun
    refine iff_of_false (not_ahead_unmarked (by simp)) ?_
    rw [ahead_cons_iff]
    simp [hnone]

variable [DecidableEq α]

/-- Mark a present name, or add the name, marked, at the back. -/
def insque (a : α) (q : Queue α) : Queue α :=
  if a ∈ names q then q.map fun e => if e.1 = a then (e.1, true) else e else q ++ [(a, true)]

theorem insque_eq_self_iff {a : α} {q : Queue α} (h : (names q).Nodup) :
    insque a q = q ↔ (a, true) ∈ q := by
  unfold insque
  split
  · next hmem =>
    obtain ⟨e, he, rfl⟩ := List.mem_map.mp hmem
    constructor
    · intro heq
      rw [← heq]
      exact List.mem_map.mpr ⟨e, he, if_pos rfl⟩
    · intro htrue
      have hkeep : ∀ x ∈ q, (if x.1 = e.1 then (x.1, true) else x) = x := by
        intro x hx
        split
        · next hname => exact List.inj_on_of_nodup_map h (hname ▸ htrue) hx rfl
        · rfl
      exact (List.map_congr_left hkeep).trans (List.map_id' q)
  · next hnot =>
    refine iff_of_false ?_ fun htrue => hnot (List.mem_map_of_mem htrue)
    intro heq
    have hlen := congrArg List.length heq
    rw [List.length_append, List.length_singleton] at hlen
    omega

/-- Take a name out. -/
def rmelem (a : α) (q : Queue α) : Queue α := q.filter fun e => e.1 ≠ a

theorem names_insque (a : α) (q : Queue α) :
    names (insque a q) = if a ∈ names q then names q else names q ++ [a] := by
  unfold insque
  split
  · simp only [names, List.map_map]
    refine List.map_congr_left fun e _ => ?_
    simp only [Function.comp_apply]
    split <;> rfl
  · simp

theorem mem_names_insque {a b : α} {q : Queue α} : b ∈ names (insque a q) ↔ b = a ∨ b ∈ names q := by
  rw [names_insque]
  split
  · constructor
    · exact Or.inr
    · rintro (rfl | h)
      · assumption
      · exact h
  · simp [or_comm]

theorem nodup_names_insque {a : α} {q : Queue α} (h : (names q).Nodup) :
    (names (insque a q)).Nodup := by
  rw [names_insque]
  split
  · exact h
  · rename_i hmem
    rw [List.nodup_append]
    exact ⟨h, by simp, by
      intro x hx y hy hxy
      rw [List.mem_singleton] at hy
      exact hmem (hy ▸ hxy ▸ hx)⟩

theorem names_rmelem (a : α) (q : Queue α) : names (rmelem a q) = (names q).filter (· ≠ a) := by
  simp [names, rmelem, List.filter_map, Function.comp_def]

theorem mem_names_rmelem {a b : α} {q : Queue α} :
    b ∈ names (rmelem a q) ↔ b ∈ names q ∧ b ≠ a := by
  simp [names_rmelem]

theorem nodup_names_rmelem {a : α} {q : Queue α} (h : (names q).Nodup) :
    (names (rmelem a q)).Nodup := by
  rw [names_rmelem]
  exact h.filter _

/-- The entry under its new name. -/
def renameEntry (a b : α) (e : α × Bool) : α × Bool := if e.1 = a then (b, e.2) else e

/-- Put another name in the place of a name. -/
def rename (a b : α) (q : Queue α) : Queue α := q.map (renameEntry a b)

theorem names_rename (a b : α) (q : Queue α) :
    names (rename a b q) = (names q).map fun c => if c = a then b else c := by
  rw [names, rename, names, List.map_map, List.map_map]
  apply List.map_congr_left
  intro e _
  by_cases he : e.1 = a
  · simp [renameEntry, he]
  · simp [renameEntry, he]

theorem nodup_names_rename {a b : α} {q : Queue α} (h : (names q).Nodup) (hb : b ∉ names q) :
    (names (rename a b q)).Nodup := by
  rw [names_rename]
  apply h.map_on
  intro x hx y hy heq
  split at heq <;> split at heq
  · simp_all
  · exact absurd (heq ▸ hy) hb
  · exact absurd (heq ▸ hx) hb
  · exact heq

theorem mem_names_rename {a b : α} {q : Queue α} (ha : a ∈ names q) : b ∈ names (rename a b q) := by
  rw [names_rename]
  exact List.mem_map.mpr ⟨a, ha, if_pos rfl⟩

theorem notMem_names_rename {a b : α} {q : Queue α} (hne : a ≠ b) : a ∉ names (rename a b q) := by
  rw [names_rename, List.mem_map]
  rintro ⟨c, -, hc⟩
  split at hc
  · exact hne hc.symm
  · next hca => exact hca hc

end SecondChance
