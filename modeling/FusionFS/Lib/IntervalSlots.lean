import FusionFS.Lib.IntervalSet
import FusionFS.Lib.SlotChain

/-!
# Intervals in the slots of an array

Every interval has the slot of its first count. Two arrays hold the ends of the interval there, the
second one only if they differ, and the slots are linked in order. Slots without an interval are
empty.
-/

namespace IntervalSlots

open IntervalSet SlotChain

variable {ν : Type*}

/-- The slots of the intervals, in order. -/
def slots (n c : Nat) (runs : Runs) : List Nat := runs.map fun r => slot n c r.1

/-- What the second array has for an interval. -/
def lastOf (num : Nat → ν) (r : Nat × Nat) : Option ν := if r.1 < r.2 then some (num r.2) else none

/-- What the arrays and the links are for a list of intervals, in order or not. -/
structure Layout (n c : Nat) (num : Nat → ν) (data1 data2 : Nat → Option ν)
    (next : Option Nat → Option Nat) (runs : Runs) : Prop where
  nodup : (slots n c runs).Nodup
  live : ∀ r ∈ runs, data1 (slot n c r.1) = some (num r.1) ∧ data2 (slot n c r.1) = lastOf num r
  dead : ∀ k, k ∉ slots n c runs → data1 k = none ∧ data2 k = none
  leads : Leads next (slots n c runs)

/-- The arrays hold a set, in a window of counts that have slots of their own. -/
structure Holds (n c : Nat) (num : Nat → ν) (data1 data2 : Nat → Option ν)
    (next : Option Nat → Option Nat) (runs : Runs) : Prop
    extends Layout n c num data1 data2 next runs where
  ordered : Ordered runs
  span : ∀ x ∈ elems runs, ∀ y ∈ elems runs, y < x + n

section

variable {n c i j k : Nat} {num : Nat → ν} {data1 data2 data1' data2' : Nat → Option ν}
  {next next' : Option Nat → Option Nat} {runs p mid mid' q : Runs} {r s : Nat × Nat}

@[simp]
theorem slots_nil : slots n c [] = [] := rfl

@[simp]
theorem slots_cons : slots n c (r :: runs) = slot n c r.1 :: slots n c runs := rfl

@[simp]
theorem slots_append : slots n c (p ++ q) = slots n c p ++ slots n c q := List.map_append

theorem mem_slots : k ∈ slots n c runs ↔ ∃ r ∈ runs, slot n c r.1 = k := List.mem_map

@[simp]
theorem lastOf_single (num : Nat → Nat) (i : Nat) : lastOf num (i, i) = none := if_neg (Nat.lt_irrefl i)

theorem lastOf_of_lt (h : i < j) : lastOf num (i, j) = some (num j) := if_pos h

/-- A window that still fits when later counts join. -/
theorem span_union {S : Finset Nat} (hspan : ∀ x ∈ S, ∀ y ∈ S, y < x + n) (hnew : ∀ x ∈ S, x < i)
    (hfits : ∀ x ∈ S, j < x + n) (hsize : j < i + n) :
    ∀ x ∈ S ∪ Finset.Icc i j, ∀ y ∈ S ∪ Finset.Icc i j, y < x + n := by
  intro x hx y hy
  rw [Finset.mem_union, Finset.mem_Icc] at hx hy
  rcases hx with hx | hx <;> rcases hy with hy | hy
  · exact hspan x hx y hy
  · have := hfits x hx
    omega
  · have := hnew y hy
    omega
  · omega

theorem slot_inj_of_span (hord : Ordered runs) (hspan : ∀ x ∈ elems runs, ∀ y ∈ elems runs, y < x + n)
    (hr : r ∈ runs) (hs : s ∈ runs) (heq : slot n c r.1 = slot n c s.1) : r = s := by
  have hfst : r.1 = s.1 := (slot_inj (hspan _ (hord.fst_mem hs) _ (hord.fst_mem hr))
    (hspan _ (hord.fst_mem hr) _ (hord.fst_mem hs))).mp heq
  exact hord.unique hr hs le_rfl (hord.le r hr) hfst.ge (hfst ▸ hord.le s hs)

theorem nodup_slots (hord : Ordered runs) (hspan : ∀ x ∈ elems runs, ∀ y ∈ elems runs, y < x + n) :
    (slots n c runs).Nodup := by
  rw [slots, List.nodup_map_iff_inj_on]
  · exact fun r hr s hs heq => slot_inj_of_span hord hspan hr hs heq
  · exact List.Nodup.of_map _ hord.nodup

namespace Layout

theorem head (h : Layout n c num data1 data2 next runs) : next none = (slots n c runs).head? :=
  h.leads.head

theorem next_eq (h : Layout n c num data1 data2 next (p ++ r :: q)) :
    next (some (slot n c r.1)) = (slots n c q).head? := by
  have hleads := h.leads
  rw [slots_append, slots_cons] at hleads
  exact hleads.next_eq

/-- A slot is in use exactly if the first array has something there. -/
theorem isSome_iff (h : Layout n c num data1 data2 next runs) :
    (data1 k).isSome ↔ ∃ r ∈ runs, slot n c r.1 = k := by
  rw [← mem_slots]
  constructor
  · intro hsome
    by_contra hout
    rw [(h.dead k hout).1] at hsome
    cases hsome
  · intro hmem
    obtain ⟨r, hr, rfl⟩ := mem_slots.mp hmem
    rw [(h.live r hr).1]
    rfl

/-- The start of an interval is where its slot says. -/
theorem start_iff (h : Layout n c num data1 data2 next runs) (hinj : ∀ r ∈ runs, num r.1 = num i → r.1 = i) :
    data1 (slot n c i) = some (num i) ↔ ∃ r ∈ runs, r.1 = i := by
  constructor
  · intro hdata
    obtain ⟨r, hr, hslot⟩ := h.isSome_iff.mp (show (data1 (slot n c i)).isSome by rw [hdata]; rfl)
    rw [← hslot, (h.live r hr).1, Option.some.injEq] at hdata
    exact ⟨r, hr, hinj r hr hdata⟩
  · rintro ⟨r, hr, rfl⟩
    exact (h.live r hr).1

/-- There are no more intervals than slots. -/
theorem length_le (h : Layout n c num data1 data2 next runs) (hn : 0 < n) : runs.length ≤ n := by
  have hsub : (slots n c runs).toFinset ⊆ Finset.range n := by
    intro k hk
    obtain ⟨r, -, rfl⟩ := mem_slots.mp (List.mem_toFinset.mp hk)
    exact Finset.mem_range.mpr (slot_lt hn)
  have hcard := Finset.card_le_card hsub
  rwa [List.toFinset_card_of_nodup h.nodup, Finset.card_range, slots, List.length_map] at hcard

/-- **Exchange.** New intervals in the place of old ones, once the arrays hold what they should in the
slots of these and the links lead through the new slots. -/
theorem edit (p mid mid' q : Runs) (h : Layout n c num data1 data2 next (p ++ (mid ++ q)))
    (hnodup : (slots n c (p ++ (mid' ++ q))).Nodup)
    (hlive : ∀ r ∈ mid', data1' (slot n c r.1) = some (num r.1) ∧ data2' (slot n c r.1) = lastOf num r)
    (hcleared : ∀ r ∈ mid, (∀ s ∈ mid', s.1 ≠ r.1) →
      data1' (slot n c r.1) = none ∧ data2' (slot n c r.1) = none)
    (hframe : ∀ k, (∀ r ∈ mid, k ≠ slot n c r.1) → (∀ r ∈ mid', k ≠ slot n c r.1) →
      data1' k = data1 k ∧ data2' k = data2 k)
    (hleads : Leads next' (slots n c (p ++ (mid' ++ q)))) :
    Layout n c num data1' data2' next' (p ++ (mid' ++ q)) := by
  have hkept : ∀ r, r ∈ p ∨ r ∈ q → data1' (slot n c r.1) = data1 (slot n c r.1) ∧
      data2' (slot n c r.1) = data2 (slot n c r.1) := by
    intro r hr
    -- the slot of an interval that stays belongs to no other
    have hout : ∀ {m : Runs}, (slots n c (p ++ (m ++ q))).Nodup → ∀ s ∈ m, slot n c r.1 ≠ slot n c s.1 := by
      intro m hnodup s hs heq
      rw [slots_append, slots_append, List.nodup_append, List.nodup_append] at hnodup
      obtain ⟨-, ⟨-, -, hmq⟩, hpm⟩ := hnodup
      have hsm : slot n c s.1 ∈ slots n c m := mem_slots.mpr ⟨s, hs, rfl⟩
      rcases hr with hr | hr
      · exact hpm _ (mem_slots.mpr ⟨r, hr, rfl⟩) _ (List.mem_append_left _ hsm) heq
      · exact hmq _ hsm _ (mem_slots.mpr ⟨r, hr, rfl⟩) heq.symm
    exact hframe _ (hout h.nodup) (hout hnodup)
  refine ⟨hnodup, fun r hr => ?_, fun k hk => ?_, hleads⟩
  · simp only [List.mem_append] at hr
    rcases hr with hr | hr | hr
    · rw [(hkept r (.inl hr)).1, (hkept r (.inl hr)).2]
      exact h.live r (by simp [hr])
    · exact hlive r hr
    · rw [(hkept r (.inr hr)).1, (hkept r (.inr hr)).2]
      exact h.live r (by simp [hr])
  · have hnew : ∀ r ∈ mid', k ≠ slot n c r.1 := fun r hr heq =>
      hk (mem_slots.mpr ⟨r, by simp [hr], heq.symm⟩)
    by_cases hold : ∃ r ∈ mid, k = slot n c r.1
    · obtain ⟨r, hr, rfl⟩ := hold
      exact hcleared r hr fun s hs heq => hnew s hs (by rw [heq])
    · have hout : ∀ r ∈ mid, k ≠ slot n c r.1 := fun r hr heq => hold ⟨r, hr, heq⟩
      rw [(hframe k hout hnew).1, (hframe k hout hnew).2]
      refine h.dead k fun hmem => ?_
      obtain ⟨r, hr, heq⟩ := mem_slots.mp hmem
      simp only [List.mem_append] at hr
      rcases hr with hr | hr | hr
      · exact hk (mem_slots.mpr ⟨r, by simp [hr], heq⟩)
      · exact hout r hr heq.symm
      · exact hk (mem_slots.mpr ⟨r, by simp [hr], heq⟩)

end Layout

namespace Holds

/-- Without an interval all slots are alike, whichever counts they are for. -/
theorem of_nil (hdata : ∀ k, data1 k = none ∧ data2 k = none) (hnext : next none = none) :
    Holds n c num data1 data2 next [] where
  nodup := List.nodup_nil
  live r hr := absurd hr List.not_mem_nil
  dead k _ := hdata k
  leads := leads_nil.mpr hnext
  ordered := Ordered.nil
  span x hx := by simp at hx

/-- The exchange, for a set that stays in a window. -/
theorem edit (p mid mid' q : Runs) (h : Holds n c num data1 data2 next (p ++ (mid ++ q)))
    (hord : Ordered (p ++ (mid' ++ q)))
    (hspan : ∀ x ∈ elems (p ++ (mid' ++ q)), ∀ y ∈ elems (p ++ (mid' ++ q)), y < x + n)
    (hlive : ∀ r ∈ mid', data1' (slot n c r.1) = some (num r.1) ∧ data2' (slot n c r.1) = lastOf num r)
    (hcleared : ∀ r ∈ mid, (∀ s ∈ mid', s.1 ≠ r.1) →
      data1' (slot n c r.1) = none ∧ data2' (slot n c r.1) = none)
    (hframe : ∀ k, (∀ r ∈ mid, k ≠ slot n c r.1) → (∀ r ∈ mid', k ≠ slot n c r.1) →
      data1' k = data1 k ∧ data2' k = data2 k)
    (hleads : Leads next' (slots n c (p ++ (mid' ++ q)))) :
    Holds n c num data1' data2' next' (p ++ (mid' ++ q)) :=
  ⟨h.toLayout.edit p mid mid' q (nodup_slots hord hspan) hlive hcleared hframe hleads, hord, hspan⟩

end Holds

end

end IntervalSlots
