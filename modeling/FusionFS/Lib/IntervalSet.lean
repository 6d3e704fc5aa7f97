import Mathlib.Algebra.BigOperators.Group.List.Basic
import Mathlib.Algebra.Order.Ring.Int
import Mathlib.Data.Finset.Card
import Mathlib.Order.Interval.Finset.Nat

/-!
# Sets as lists of intervals

A finite set of counts, kept as its intervals in order. Two intervals may touch, but they do not
overlap, so that the lengths of the intervals add up to the size of the set.
-/

namespace IntervalSet

/-- Both ends belong to an interval. -/
abbrev Runs := List (Nat × Nat)

structure Ordered (runs : Runs) : Prop where
  le : ∀ r ∈ runs, r.1 ≤ r.2
  apart : runs.Pairwise fun r s => r.2 < s.1

def elems (runs : Runs) : Finset Nat := runs.foldr (fun r s => Finset.Icc r.1 r.2 ∪ s) ∅

/-- The sum of the lengths. -/
def total (runs : Runs) : Int := (runs.map fun r => (r.2 : Int) - r.1 + 1).sum

variable {runs p mid mid' q : Runs} {r s : Nat × Nat} {x : Nat}

@[simp]
theorem elems_nil : elems [] = ∅ := rfl

@[simp]
theorem elems_cons : elems (r :: runs) = Finset.Icc r.1 r.2 ∪ elems runs := rfl

theorem mem_elems : x ∈ elems runs ↔ ∃ r ∈ runs, r.1 ≤ x ∧ x ≤ r.2 := by
  induction runs with
  | nil => simp
  | cons r runs ih => simp [ih]

@[simp]
theorem elems_append : elems (p ++ q) = elems p ∪ elems q := by
  ext x
  simp only [mem_elems, Finset.mem_union, List.mem_append, or_and_right, exists_or]

@[simp]
theorem total_nil : total [] = 0 := rfl

@[simp]
theorem total_cons : total (r :: runs) = (r.2 : Int) - r.1 + 1 + total runs := by
  rw [total, List.map_cons, List.sum_cons, total]

@[simp]
theorem total_append : total (p ++ q) = total p + total q := by
  rw [total, List.map_append, List.sum_append, total, total]

namespace Ordered

theorem nil : Ordered [] := ⟨by simp, List.Pairwise.nil⟩

theorem singleton (h : r.1 ≤ r.2) : Ordered [r] := ⟨by simpa using h, List.pairwise_singleton _ _⟩

theorem cons_iff : Ordered (r :: runs) ↔ r.1 ≤ r.2 ∧ (∀ s ∈ runs, r.2 < s.1) ∧ Ordered runs := by
  constructor
  · rintro ⟨hle, hapart⟩
    obtain ⟨hr, hrest⟩ := List.pairwise_cons.mp hapart
    exact ⟨hle r List.mem_cons_self, hr, fun s hs => hle s (List.mem_cons_of_mem _ hs), hrest⟩
  · rintro ⟨hr, hall, hle, hapart⟩
    refine ⟨?_, List.pairwise_cons.mpr ⟨hall, hapart⟩⟩
    intro s hs
    rcases List.mem_cons.mp hs with rfl | hs
    · exact hr
    · exact hle s hs

theorem append_iff : Ordered (p ++ q) ↔
    Ordered p ∧ Ordered q ∧ ∀ r ∈ p, ∀ s ∈ q, r.2 < s.1 := by
  constructor
  · rintro ⟨hle, hapart⟩
    obtain ⟨hp, hq, hpq⟩ := List.pairwise_append.mp hapart
    exact ⟨⟨fun r hr => hle r (List.mem_append_left _ hr), hp⟩,
      ⟨fun r hr => hle r (List.mem_append_right _ hr), hq⟩, hpq⟩
  · rintro ⟨hp, hq, hpq⟩
    refine ⟨?_, List.pairwise_append.mpr ⟨hp.apart, hq.apart, hpq⟩⟩
    intro r hr
    rcases List.mem_append.mp hr with hr | hr
    · exact hp.le r hr
    · exact hq.le r hr

theorem not_mem_tail (h : Ordered (r :: runs)) (hx : x ≤ r.2) : x ∉ elems runs := by
  intro hmem
  obtain ⟨s, hs, hle, -⟩ := mem_elems.mp hmem
  have := (cons_iff.mp h).2.1 s hs
  omega

theorem card_elems (h : Ordered runs) : ((elems runs).card : Int) = total runs := by
  induction runs with
  | nil => rfl
  | cons r runs ih =>
      obtain ⟨hr, -, hrest⟩ := cons_iff.mp h
      have hdisjoint : Disjoint (Finset.Icc r.1 r.2) (elems runs) := by
        rw [Finset.disjoint_left]
        exact fun x hx => h.not_mem_tail (Finset.mem_Icc.mp hx).2
      rw [elems_cons, Finset.card_union_of_disjoint hdisjoint, Nat.card_Icc, total_cons,
        Nat.cast_add, ih hrest]
      omega

theorem fst_mem (h : Ordered runs) (hr : r ∈ runs) : r.1 ∈ elems runs :=
  mem_elems.mpr ⟨r, hr, le_rfl, h.le r hr⟩

theorem snd_mem (h : Ordered runs) (hr : r ∈ runs) : r.2 ∈ elems runs :=
  mem_elems.mpr ⟨r, hr, h.le r hr, le_rfl⟩

theorem total_pos (h : Ordered runs) (hne : runs ≠ []) : 0 < total runs := by
  obtain ⟨r, rest, rfl⟩ := List.exists_cons_of_ne_nil hne
  rw [← h.card_elems, Int.natCast_pos, Finset.card_pos]
  exact ⟨r.1, h.fst_mem List.mem_cons_self⟩

theorem total_eq_zero_iff (h : Ordered runs) : total runs = 0 ↔ runs = [] := by
  constructor
  · intro hzero
    by_contra hne
    have := h.total_pos hne
    omega
  · rintro rfl
    rfl

/-- Two intervals with a common count are the same. -/
theorem unique (h : Ordered runs) (hr : r ∈ runs) (hs : s ∈ runs) (hrx : r.1 ≤ x) (hxr : x ≤ r.2)
    (hsx : s.1 ≤ x) (hxs : x ≤ s.2) : r = s := by
  induction runs with
  | nil => cases hr
  | cons t runs ih =>
      obtain ⟨-, hall, hrest⟩ := cons_iff.mp h
      rcases List.mem_cons.mp hr with rfl | hr'
      · rcases List.mem_cons.mp hs with rfl | hs'
        · rfl
        · have := hall s hs'
          omega
      · rcases List.mem_cons.mp hs with rfl | hs'
        · have := hall r hr'
          omega
        · exact ih hrest hr' hs'

/-- Exchanging intervals for others between the same ends. -/
theorem replace (h : Ordered (p ++ (mid ++ q))) (hmid : Ordered mid')
    (hlow : ∀ r ∈ mid', ∃ s ∈ mid, s.1 ≤ r.1) (hhigh : ∀ r ∈ mid', ∃ s ∈ mid, r.2 ≤ s.2) :
    Ordered (p ++ (mid' ++ q)) := by
  obtain ⟨hp, hmq, hpm⟩ := append_iff.mp h
  obtain ⟨-, hq, hmidq⟩ := append_iff.mp hmq
  refine append_iff.mpr ⟨hp, append_iff.mpr ⟨hmid, hq, ?_⟩, ?_⟩
  · intro r hr t ht
    obtain ⟨s, hs, hle⟩ := hhigh r hr
    have := hmidq s hs t ht
    omega
  · intro t ht r hr
    rcases List.mem_append.mp hr with hr | hr
    · obtain ⟨s, hs, hle⟩ := hlow r hr
      have := hpm t ht s (List.mem_append_left _ hs)
      omega
    · exact hpm t ht r (List.mem_append_right _ hr)

/-- The counts of an interval are in no other. -/
theorem not_mem_of_mid (h : Ordered (p ++ (r :: q))) (hrx : r.1 ≤ x) (hxr : x ≤ r.2) :
    x ∉ elems p ∧ x ∉ elems q := by
  obtain ⟨-, hrq, hpr⟩ := append_iff.mp h
  refine ⟨fun hmem => ?_, hrq.not_mem_tail hxr⟩
  obtain ⟨s, hs, -, hle⟩ := mem_elems.mp hmem
  have := hpr s hs r List.mem_cons_self
  omega

/-- One count less in one of the intervals. -/
theorem elems_erase {mid : Runs} {x : Nat} (h : Ordered (p ++ ([r] ++ q))) (hrx : r.1 ≤ x)
    (hxr : x ≤ r.2) (hmid : elems mid = (Finset.Icc r.1 r.2).erase x) :
    elems (p ++ (mid ++ q)) = (elems (p ++ ([r] ++ q))).erase x := by
  obtain ⟨hxp, hxq⟩ := h.not_mem_of_mid hrx hxr
  ext y
  simp only [elems_append, elems_cons, elems_nil, hmid, Finset.mem_union, Finset.mem_erase,
    Finset.union_empty]
  constructor
  · rintro (hy | ⟨hne, hy⟩ | hy)
    · exact ⟨ne_of_mem_of_not_mem hy hxp, .inl hy⟩
    · exact ⟨hne, .inr (.inl hy)⟩
    · exact ⟨ne_of_mem_of_not_mem hy hxq, .inr (.inr hy)⟩
  · rintro ⟨hne, hy | hy | hy⟩
    · exact .inl hy
    · exact .inr (.inl ⟨hne, hy⟩)
    · exact .inr (.inr hy)

theorem total_erase {runs' : Runs} {x : Nat} (h : Ordered runs) (h' : Ordered runs')
    (hx : x ∈ elems runs) (heq : elems runs' = (elems runs).erase x) :
    total runs' = total runs - 1 := by
  have hcard := Finset.card_erase_add_one hx
  rw [← h.card_elems, ← h'.card_elems, heq]
  omega

/-- The first count is the least. -/
theorem le_of_mem (h : Ordered (r :: runs)) (hx : x ∈ elems (r :: runs)) : r.1 ≤ x := by
  obtain ⟨hr, hall, -⟩ := cons_iff.mp h
  obtain ⟨s, hs, hle, -⟩ := mem_elems.mp hx
  rcases List.mem_cons.mp hs with rfl | hs
  · exact hle
  · have := hall s hs
    omega

theorem nodup (h : Ordered runs) : (runs.map Prod.fst).Nodup := by
  rw [List.nodup_map_iff_inj_on]
  · intro r hr s hs heq
    exact h.unique hr hs le_rfl (h.le r hr) heq.ge (heq ▸ h.le s hs)
  · apply h.apart.imp_of_mem
    intro r s hr hs hlt heq
    subst heq
    have := h.le r hr
    omega

end Ordered

end IntervalSet
