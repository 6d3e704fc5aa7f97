import Mathlib.Data.List.Perm.Subperm
import Mathlib.Data.List.Nodup
import Mathlib.Logic.Function.Basic

/-!
# Singly linked chains in a heap

A node holds its data and the address of the next one. A chain is described by the list of its
addresses and their data; which list that is, the heap decides.
-/

namespace Chained

universe u

variable {β : Type u}

structure Node (β : Type u) where
  next : Option Nat
  data : β
  deriving DecidableEq

abbrev Heap (β : Type u) := Nat → Option (Node β)

/-- The nodes from address `p` up to, and without, address `q`. -/
def Segment (h : Heap β) : Option Nat → List (Nat × β) → Option Nat → Prop
  | p, [], q => p = q
  | p, e :: es, q => p = some e.1 ∧ ∃ next, h e.1 = some ⟨next, e.2⟩ ∧ Segment h next es q

def Linked (h : Heap β) (p : Option Nat) (es : List (Nat × β)) : Prop := Segment h p es none

/-- The heap with only part of the data in view. -/
def view {γ : Type u} (f : β → γ) (h : Heap β) : Heap γ := fun a =>
  (h a).map fun node => ⟨node.next, f node.data⟩

theorem view_of_some {γ : Type u} {f : β → γ} {h : Heap β} {a : Nat} {node : Node β}
    (hnode : h a = some node) : view f h a = some ⟨node.next, f node.data⟩ := by
  rw [view, hnode, Option.map_some]

theorem exists_of_view {γ : Type u} {f : β → γ} {h : Heap β} {a : Nat} {next : Option Nat} {d : γ}
    (hnode : view f h a = some ⟨next, d⟩) : ∃ data, h a = some ⟨next, data⟩ ∧ f data = d := by
  obtain ⟨node, hsome, heq⟩ := Option.map_eq_some_iff.mp hnode
  obtain ⟨rfl, rfl⟩ := Node.mk.inj heq
  exact ⟨node.data, hsome, rfl⟩

theorem view_update {γ : Type u} (f : β → γ) (h : Heap β) (a : Nat) (node : Node β) :
    view f (Function.update h a (some node)) =
      Function.update (view f h) a (some ⟨node.next, f node.data⟩) := by
  funext c
  by_cases hc : c = a
  · subst hc
    simp [view]
  · simp [view, hc]

theorem view_free {γ : Type u} (f : β → γ) (h : Heap β) (a : Nat) :
    view f (Function.update h a none) = Function.update (view f h) a none := by
  funext c
  by_cases hc : c = a
  · subst hc
    simp [view]
  · simp [view, hc]

theorem view_update_hidden {γ : Type u} {f : β → γ} {h : Heap β} {a : Nat} {node : Node β}
    (hnode : h a = some node) {data : β} (hdata : f data = f node.data) :
    view f (Function.update h a (some ⟨node.next, data⟩)) = view f h := by
  rw [view_update, hdata, ← view_of_some hnode, Function.update_eq_self]

variable {h h' : Heap β} {p q : Option Nat} {es fs : List (Nat × β)} {a b : Nat} {d d' : β}

theorem segment_append :
    Segment h p (es ++ fs) q ↔ ∃ m, Segment h p es m ∧ Segment h m fs q := by
  induction es generalizing p with
  | nil => exact ⟨fun hs => ⟨p, rfl, hs⟩, fun ⟨m, hm, hs⟩ => hm ▸ hs⟩
  | cons e es ih =>
      constructor
      · rintro ⟨hp, next, hnode, hrest⟩
        obtain ⟨m, hleft, hright⟩ := ih.mp hrest
        exact ⟨m, ⟨hp, next, hnode, hleft⟩, hright⟩
      · rintro ⟨m, ⟨hp, next, hnode, hleft⟩, hright⟩
        exact ⟨hp, next, hnode, ih.mpr ⟨m, hleft, hright⟩⟩

theorem Segment.frame (hs : Segment h p es q) (hagree : ∀ e ∈ es, h' e.1 = h e.1) :
    Segment h' p es q := by
  induction es generalizing p with
  | nil => exact hs
  | cons e es ih =>
      obtain ⟨hp, next, hnode, hrest⟩ := hs
      refine ⟨hp, next, ?_, ih hrest fun f hf => hagree f (List.mem_cons_of_mem _ hf)⟩
      rw [hagree e List.mem_cons_self, hnode]

theorem Segment.mem (hs : Segment h p es q) (hmem : (a, d) ∈ es) :
    ∃ next, h a = some ⟨next, d⟩ := by
  induction es generalizing p with
  | nil => cases hmem
  | cons e es ih =>
      obtain ⟨-, next, hnode, hrest⟩ := hs
      rcases List.mem_cons.mp hmem with rfl | hmem
      · exact ⟨next, hnode⟩
      · exact ih hrest hmem

theorem Linked.mem (hs : Linked h p es) (hmem : (a, d) ∈ es) : ∃ next, h a = some ⟨next, d⟩ :=
  Segment.mem hs hmem

theorem Linked.frame (hs : Linked h p es) (hagree : ∀ e ∈ es, h' e.1 = h e.1) : Linked h' p es :=
  Segment.frame hs hagree

@[simp]
theorem linked_nil : Linked h p [] ↔ p = none := Iff.rfl

theorem Linked.of_none (hs : Linked h none es) : es = [] := by
  cases es with
  | nil => rfl
  | cons e es => exact absurd hs.1 nofun

theorem Linked.of_some (hs : Linked h (some a) es) :
    ∃ next d fs, es = (a, d) :: fs ∧ h a = some ⟨next, d⟩ ∧ Linked h next fs := by
  cases es with
  | nil => cases hs
  | cons e fs =>
      obtain ⟨hp, next, hnode, hrest⟩ := hs
      obtain rfl : a = e.1 := Option.some.inj hp
      exact ⟨next, e.2, fs, rfl, hnode, hrest⟩

theorem Linked.unique (hs : Linked h p es) (ht : Linked h p fs) : es = fs := by
  induction es generalizing p fs with
  | nil =>
      cases hs
      exact ht.of_none.symm
  | cons e es ih =>
      obtain ⟨rfl, next, hnode, hrest⟩ := hs
      obtain ⟨next', d', fs', rfl, hnode', hrest'⟩ := ht.of_some
      rw [hnode, Option.some.injEq, Node.mk.injEq] at hnode'
      obtain ⟨rfl, rfl⟩ := hnode'
      rw [ih hrest hrest']

theorem Linked.nodup (hs : Linked h p es) : (es.map Prod.fst).Nodup := by
  induction es generalizing p with
  | nil => exact List.nodup_nil
  | cons e es ih =>
      obtain ⟨hp, next, hnode, hrest⟩ := hs
      refine List.nodup_cons.mpr ⟨?_, ih hrest⟩
      intro hmem
      obtain ⟨⟨a, d⟩, hmem, rfl⟩ := List.mem_map.mp hmem
      obtain ⟨l, r, rfl⟩ := List.append_of_mem hmem
      obtain ⟨m, -, hright⟩ := segment_append.mp hrest
      obtain rfl : m = some e.1 := hright.1
      have hall : Linked h (some e.1) (e :: (l ++ (e.1, d) :: r)) := ⟨rfl, next, hnode, hrest⟩
      have hlen := congrArg List.length (hall.unique hright)
      simp only [List.length_cons, List.length_append] at hlen
      omega

theorem Linked.notMem_of_nodup (hs : Linked h p (es ++ (a, d) :: fs)) :
    (∀ e ∈ es, e.1 ≠ a) ∧ ∀ e ∈ fs, e.1 ≠ a := by
  have hnodup := hs.nodup
  rw [List.map_append, List.map_cons, List.nodup_append] at hnodup
  obtain ⟨-, hright, hcross⟩ := hnodup
  constructor
  · intro e he
    exact hcross e.1 (List.mem_map_of_mem he) a List.mem_cons_self
  · rintro e he rfl
    exact (List.nodup_cons.mp hright).1 (List.mem_map.mpr ⟨e, he, rfl⟩)

/-- A chain of `n` addresses needs `n` of them. -/
theorem Linked.length_le {n : Nat} (hs : Linked h p es) (hlt : ∀ e ∈ es, e.1 < n) :
    es.length ≤ n := by
  have hsub : es.map Prod.fst ⊆ List.range n := by
    intro a ha
    obtain ⟨e, he, rfl⟩ := List.mem_map.mp ha
    exact List.mem_range.mpr (hlt e he)
  have hle := (List.subperm_of_subset hs.nodup hsub).length_le
  rwa [List.length_map, List.length_range] at hle

/-! ### Editing a chain -/

/-- Two heaps that agree away from one node of a chain agree on the rest of it. -/
theorem Linked.split (hs : Linked h p (es ++ (a, d) :: fs)) (hagree : ∀ c, c ≠ a → h' c = h c) :
    ∃ next, h a = some ⟨next, d⟩ ∧ Segment h' p es (some a) ∧ Linked h' next fs := by
  obtain ⟨hleft, hright⟩ := hs.notMem_of_nodup
  obtain ⟨m, hinit, hm, next, hnode, hrest⟩ := segment_append.mp hs
  subst hm
  exact ⟨next, hnode, hinit.frame fun e he => hagree e.1 (hleft e he),
    Segment.frame hrest fun e he => hagree e.1 (hright e he)⟩

theorem Linked.setData {next : Option Nat} (hs : Linked h p (es ++ (a, d) :: fs))
    (hnode : h a = some ⟨next, d⟩) (hset : h' a = some ⟨next, d'⟩)
    (hagree : ∀ c, c ≠ a → h' c = h c) : Linked h' p (es ++ (a, d') :: fs) := by
  obtain ⟨next', hnode', hinit, hrest⟩ := hs.split hagree
  obtain rfl : next' = next := by
    rw [hnode, Option.some.injEq, Node.mk.injEq] at hnode'
    exact hnode'.1.symm
  exact segment_append.mpr ⟨some a, hinit, rfl, next', hset, hrest⟩

theorem Linked.snoc (hs : Linked h p (es ++ [(a, d)])) (hlast : h' a = some ⟨some b, d⟩)
    (hnew : h' b = some ⟨none, d'⟩) (hfresh : ∀ e ∈ es ++ [(a, d)], e.1 ≠ b)
    (hagree : ∀ c, c ≠ a → c ≠ b → h' c = h c) : Linked h' p (es ++ [(a, d), (b, d')]) := by
  obtain ⟨hleft, -⟩ := hs.notMem_of_nodup
  obtain ⟨m, hinit, hm, -⟩ := segment_append.mp hs
  subst hm
  refine segment_append.mpr ⟨some a, hinit.frame ?_, rfl, some b, hlast, rfl, none, hnew, rfl⟩
  intro e he
  exact hagree e.1 (hleft e he) (hfresh e (List.mem_append_left _ he))

theorem Linked.unlink {next : Option Nat} (hs : Linked h p (es ++ (a, d) :: (b, d') :: fs))
    (hnode : h b = some ⟨next, d'⟩) (hset : h' a = some ⟨next, d⟩)
    (hagree : ∀ c, c ≠ a → c ≠ b → h' c = h c) : Linked h' p (es ++ (a, d) :: fs) := by
  obtain ⟨ha, ha'⟩ := hs.notMem_of_nodup
  have hs' : Linked h p ((es ++ [(a, d)]) ++ (b, d') :: fs) := by simpa using hs
  obtain ⟨hb, hb'⟩ := hs'.notMem_of_nodup
  obtain ⟨m, hinit, hm, -, -, hm', next', hnode', hrest⟩ := segment_append.mp hs
  subst hm
  rw [hnode, Option.some.injEq, Node.mk.injEq] at hnode'
  obtain ⟨rfl, -⟩ := hnode'
  refine segment_append.mpr ⟨some a, hinit.frame ?_, rfl, next, hset, hrest.frame ?_⟩
  · intro e he
    exact hagree e.1 (ha e he) (hb e (List.mem_append_left _ he))
  · intro e he
    exact hagree e.1 (ha' e (List.mem_cons_of_mem _ he)) (hb' e he)

end Chained
