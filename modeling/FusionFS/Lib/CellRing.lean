import FusionFS.Lib.Ring
import Mathlib.Logic.Function.Basic

/-!
# Rings of cells in memory

Cells with two links and a value, and what `insque` and `remque` of `<search.h>` do to a ring of
them. A step through a cell that is not allocated is undefined, `none`.
-/

namespace CellRing

universe u

variable {A : Type u} {V : Type u}

structure Cell (A : Type u) (V : Type u) where
  next : A
  prev : A
  val : V

abbrev Heap (A : Type u) (V : Type u) := A → Option (Cell A V)

def links (h : Heap A V) : Ring.Links A :=
  ⟨fun a => (h a).map Cell.next, fun a => (h a).map Cell.prev⟩

def vals (h : Heap A V) (a : A) : Option V := (h a).map Cell.val

theorem isSome_vals (h : Heap A V) (a : A) : (vals h a).isSome ↔ (h a).isSome := by
  simp [vals]

variable [DecidableEq A]

/-- A write to a cell. -/
def modify (h : Heap A V) (a : A) (f : Cell A V → Cell A V) : Option (Heap A V) :=
  (h a).map fun c => Function.update h a (some (f c))

def setNext (h : Heap A V) (a b : A) : Option (Heap A V) := modify h a fun c => { c with next := b }

def setPrev (h : Heap A V) (a b : A) : Option (Heap A V) := modify h a fun c => { c with prev := b }

def setVal (h : Heap A V) (a : A) (v : V) : Option (Heap A V) :=
  modify h a fun c => { c with val := v }

def free (h : Heap A V) (a : A) : Heap A V := Function.update h a none

/-- `insque(elem, prev)`. -/
def insque (elem prev : A) (h : Heap A V) : Option (Heap A V) := do
  let next ← (links h).next prev
  let h ← setNext h prev elem
  let h ← setPrev h next elem
  let h ← setNext h elem next
  setPrev h elem prev

/-- `remque(elem)`. -/
def remque (elem : A) (h : Heap A V) : Option (Heap A V) := do
  let next ← (links h).next elem
  let prev ← (links h).prev elem
  let h ← setPrev h next prev
  setNext h prev next

/-! ### Writes -/

variable {h : Heap A V} {a : A}

theorem modify_spec (ha : (vals h a).isSome) (f : Cell A V → Cell A V) :
    ∃ c, h a = some c ∧ modify h a f = some (Function.update h a (some (f c))) := by
  obtain ⟨c, hc⟩ := Option.isSome_iff_exists.mp ((isSome_vals h a).mp ha)
  exact ⟨c, hc, by rw [modify, hc, Option.map_some]⟩

/-- A part of the cells that a write leaves as it is. -/
theorem map_update_of_eq {B : Type u} {g : Cell A V → B} {c c' : Cell A V} (hc : h a = some c)
    (hg : g c' = g c) :
    (fun x => (Function.update h a (some c') x).map g) = fun x => (h x).map g := by
  have hupdate := Function.comp_update (Option.map g) h a (some c')
  have hsame : Option.map g (some c') = (Option.map g ∘ h) a := by
    rw [Function.comp_apply, hc, Option.map_some, Option.map_some, hg]
  rw [hsame, Function.update_eq_self] at hupdate
  exact hupdate

theorem setNext_spec (ha : (vals h a).isSome) (b : A) : ∃ h', setNext h a b = some h' ∧
    vals h' = vals h ∧ (links h').next = Function.update (links h).next a (some b) ∧
      (links h').prev = (links h).prev := by
  obtain ⟨c, hc, hs⟩ := modify_spec ha fun c => { c with next := b }
  exact ⟨_, hs, map_update_of_eq hc rfl, Function.comp_update (Option.map Cell.next) h a _,
    map_update_of_eq hc rfl⟩

theorem setPrev_spec (ha : (vals h a).isSome) (b : A) : ∃ h', setPrev h a b = some h' ∧
    vals h' = vals h ∧ (links h').prev = Function.update (links h).prev a (some b) ∧
      (links h').next = (links h).next := by
  obtain ⟨c, hc, hs⟩ := modify_spec ha fun c => { c with prev := b }
  exact ⟨_, hs, map_update_of_eq hc rfl, Function.comp_update (Option.map Cell.prev) h a _,
    map_update_of_eq hc rfl⟩

theorem setVal_spec (ha : (vals h a).isSome) (v : V) : ∃ h', setVal h a v = some h' ∧
    links h' = links h ∧ vals h' = Function.update (vals h) a (some v) := by
  obtain ⟨c, hc, hs⟩ := modify_spec ha fun c => { c with val := v }
  refine ⟨_, hs, ?_, Function.comp_update (Option.map Cell.val) h a _⟩
  exact congrArg₂ Ring.Links.mk (map_update_of_eq hc rfl) (map_update_of_eq hc rfl)

theorem vals_free (h : Heap A V) (a : A) : vals (free h a) = Function.update (vals h) a none :=
  Function.comp_update (Option.map Cell.val) h a none

theorem links_free_of_ne (h : Heap A V) {a x : A} (hx : x ≠ a) :
    (links (free h a)).next x = (links h).next x ∧ (links (free h a)).prev x = (links h).prev x := by
  simp [links, free, hx]

/-! ### Rings -/

omit [DecidableEq A] in
theorem rotated {k : Ring.Links A} {u w : List A} {e : A} (hcycle : Ring.Cycle k (u ++ e :: w))
    (hnodup : (u ++ e :: w).Nodup) : Ring.Cycle k (e :: (w ++ u)) ∧ (e :: (w ++ u)).Nodup := by
  have hperm : (u ++ e :: w).Perm (e :: (w ++ u)) :=
    List.perm_middle.trans (List.Perm.cons e List.perm_append_comm)
  exact ⟨by simpa using Ring.Cycle.rotate hcycle, hperm.nodup_iff.mp hnodup⟩

/-- The four writes of `insque`. -/
theorem insque_writes {elem prev x : A} (hnext : (links h).next prev = some x)
    (hprev : (vals h prev).isSome) (hx : (vals h x).isSome) (helem : (vals h elem).isSome) :
    ∃ h', insque elem prev h = some h' ∧ vals h' = vals h ∧
      (links h').next =
        Function.update (Function.update (links h).next prev (some elem)) elem (some x) ∧
      (links h').prev =
        Function.update (Function.update (links h).prev x (some elem)) elem (some prev) := by
  obtain ⟨h₁, hs₁, hv₁, hn₁, hp₁⟩ := setNext_spec hprev elem
  obtain ⟨h₂, hs₂, hv₂, hp₂, hn₂⟩ := setPrev_spec (h := h₁) (a := x) (by rwa [hv₁]) elem
  obtain ⟨h₃, hs₃, hv₃, hn₃, hp₃⟩ := setNext_spec (h := h₂) (a := elem) (by rwa [hv₂, hv₁]) x
  obtain ⟨h₄, hs₄, hv₄, hp₄, hn₄⟩ :=
    setPrev_spec (h := h₃) (a := elem) (by rwa [hv₃, hv₂, hv₁]) prev
  refine ⟨h₄, ?_, by rw [hv₄, hv₃, hv₂, hv₁], by rw [hn₄, hn₃, hn₂, hn₁],
    by rw [hp₄, hp₃, hp₂, hp₁]⟩
  rw [insque, hnext]
  simp only [Option.bind_eq_bind, Option.bind_some, hs₁, hs₂, hs₃, hs₄]

/-- A cell linked to itself and put behind itself is a ring. -/
theorem insque_alone {elem : A} (helem : (vals h elem).isSome) :
    ∃ h₁ h₂ h₃, setNext h elem elem = some h₁ ∧ setPrev h₁ elem elem = some h₂ ∧
      insque elem elem h₂ = some h₃ ∧ vals h₃ = vals h ∧ Ring.Cycle (links h₃) [elem] := by
  obtain ⟨h₁, hs₁, hv₁, hn₁, hp₁⟩ := setNext_spec helem elem
  obtain ⟨h₂, hs₂, hv₂, hp₂, hn₂⟩ := setPrev_spec (h := h₁) (a := elem) (by rwa [hv₁]) elem
  have hlive : (vals h₂ elem).isSome := by rwa [hv₂, hv₁]
  have hself : (links h₂).next elem = some elem := by rw [hn₂, hn₁, Function.update_self]
  obtain ⟨h₃, hs₃, hv₃, hnext, hprev⟩ := insque_writes hself hlive hlive hlive
  refine ⟨h₁, h₂, h₃, hs₁, hs₂, hs₃, by rw [hv₃, hv₂, hv₁], ?_⟩
  refine List.isChain_cons_cons.mpr ⟨⟨?_, ?_⟩, List.isChain_singleton _⟩
  · rw [hnext, Function.update_self]
  · rw [hprev, Function.update_self]

/-- **Insertion.** `insque` puts a loose cell behind a cell of the ring. -/
theorem insque_spec {u w : List A} {elem prev : A} (hcycle : Ring.Cycle (links h) (u ++ prev :: w))
    (hnodup : (u ++ prev :: w).Nodup) (hlive : ∀ a ∈ u ++ prev :: w, (vals h a).isSome)
    (helem : (vals h elem).isSome) (hloose : elem ∉ u ++ prev :: w) :
    ∃ h', insque elem prev h = some h' ∧ vals h' = vals h ∧
      Ring.Cycle (links h') (u ++ prev :: elem :: w) := by
  -- the ring as it reads behind `prev`
  have hcells : (u ++ prev :: w).Perm (w ++ (u ++ [prev])) := by
    have hsplit : u ++ prev :: w = (u ++ [prev]) ++ w := by simp
    rw [hsplit]
    exact List.perm_append_comm
  have hturned : Ring.Cycle (links h) (w ++ (u ++ [prev])) := by
    refine Ring.Cycle.rotate ?_
    simpa using hcycle
  obtain ⟨x, l, hxl⟩ := List.exists_cons_of_ne_nil (show w ++ (u ++ [prev]) ≠ [] by simp)
  have hlast : (x :: l).getLast? = some prev := by
    rw [← hxl, ← List.append_assoc]
    exact List.getLast?_concat
  rw [hxl] at hturned hcells
  have hmemx : x ∈ u ++ prev :: w := hcells.mem_iff.mpr List.mem_cons_self
  have hxe : x ≠ elem := fun heq => hloose (heq ▸ hmemx)
  have hpe : prev ≠ elem := fun heq => hloose (by simp [heq])
  have hlink : Ring.Linked (links h) prev x := hturned.last_linked_head hlast
  obtain ⟨h', hs', hvals, hnext, hprev⟩ :=
    insque_writes hlink.1 (hlive prev (by simp)) (hlive x hmemx) helem
  refine ⟨h', hs', hvals, ?_⟩
  have hin : Ring.Cycle (links h') (elem :: x :: l) := by
    refine hturned.insert (hcells.nodup_iff.mp hnodup) (fun hm => hloose (hcells.mem_iff.mpr hm))
      hlast ⟨?_, ?_⟩ ⟨?_, ?_⟩ ?_ ?_
    · rw [hnext, Function.update_self]
    · rw [hprev, Function.update_of_ne hxe, Function.update_self]
    · rw [hnext, Function.update_of_ne hpe, Function.update_self]
    · rw [hprev, Function.update_self]
    · intro a hae hap
      rw [hnext, Function.update_of_ne hae, Function.update_of_ne hap]
    · intro a hae hax
      rw [hprev, Function.update_of_ne hae, Function.update_of_ne hax]
  have hback : elem :: x :: l = (elem :: w) ++ (u ++ [prev]) := by rw [← hxl]; simp
  rw [hback] at hin
  have hturn := hin.rotate
  simpa using hturn

/-- **Removal.** `remque` takes a cell out of its ring; then it can be freed. -/
theorem remque_spec {u w : List A} {elem : A} (hcycle : Ring.Cycle (links h) (u ++ elem :: w))
    (hnodup : (u ++ elem :: w).Nodup) (hlive : ∀ a ∈ u ++ elem :: w, (vals h a).isSome) :
    ∃ h', remque elem h = some h' ∧ vals (free h' elem) = Function.update (vals h) elem none ∧
      Ring.Cycle (links (free h' elem)) (u ++ w) := by
  obtain ⟨hrot, hnd⟩ := rotated hcycle hnodup
  -- its neighbours, both itself where it is alone
  obtain ⟨x, hx, hex⟩ : ∃ x, (w ++ u ++ [elem]).head? = some x ∧ Ring.Linked (links h) elem x := by
    cases hrest : w ++ u with
    | nil =>
        rw [hrest] at hrot
        exact ⟨elem, rfl, (List.isChain_cons_cons.mp hrot).1⟩
    | cons x l =>
        rw [hrest] at hrot
        exact ⟨x, rfl, (List.isChain_cons_cons.mp hrot).1⟩
  obtain ⟨y, hy⟩ : ∃ y, (elem :: (w ++ u)).getLast? = some y :=
    Option.isSome_iff_exists.mp (by simp)
  have hye : Ring.Linked (links h) y elem := hrot.last_linked_head hy
  have hall : ∀ a ∈ elem :: (w ++ u), (vals h a).isSome := by
    intro a ha
    apply hlive
    simp only [List.mem_append, List.mem_cons] at ha ⊢
    tauto
  have hxmem : x ∈ elem :: (w ++ u) := by
    have hm := List.mem_of_head? hx
    simp only [List.mem_append, List.mem_cons, List.not_mem_nil, or_false] at hm ⊢
    tauto
  obtain ⟨h₁, hs₁, hv₁, hp₁, hn₁⟩ := setPrev_spec (hall x hxmem) y
  obtain ⟨h₂, hs₂, hv₂, hn₂, hp₂⟩ :=
    setNext_spec (h := h₁) (a := y) (by rw [hv₁]; exact hall y (List.mem_of_getLast? hy)) x
  refine ⟨h₂, ?_, by rw [vals_free, hv₂, hv₁], ?_⟩
  · rw [remque, hex.1, hye.2]
    simp only [Option.bind_eq_bind, Option.bind_some, hs₁, hs₂]
  · cases hrest : w ++ u with
    | nil =>
        obtain ⟨rfl, rfl⟩ := List.append_eq_nil_iff.mp hrest
        trivial
    | cons z l =>
        rw [hrest] at hrot hnd hx hy
        obtain rfl : z = x := Option.some.inj hx
        rw [List.getLast?_cons_cons] at hy
        have hout := (List.nodup_cons.mp hnd).1
        have hze : z ≠ elem := fun heq => hout (heq ▸ List.mem_cons_self)
        have hyne : y ≠ elem := fun heq => hout (heq ▸ List.mem_of_getLast? hy)
        refine Ring.Cycle.rotate (p := w) (q := u) ?_
        rw [hrest]
        refine hrot.unlink hnd hy ⟨?_, ?_⟩ ?_ ?_
        · rw [(links_free_of_ne h₂ hyne).1, hn₂, Function.update_self]
        · rw [(links_free_of_ne h₂ hze).2, hp₂, hp₁, Function.update_self]
        · intro a hae hay
          rw [(links_free_of_ne h₂ hae).1, hn₂, Function.update_of_ne hay, hn₁]
        · intro a hae haz
          rw [(links_free_of_ne h₂ hae).2, hp₂, hp₁, Function.update_of_ne haz]

end CellRing
