import FusionFS.CacheModes
import FusionFS.ClockRing
import FusionFS.LinkedQueue

/-!
# What the queue functions do to the ring

Each function of the LRU and LFU queues, as a change of the list the ring reads as.
-/

namespace FusionFS.LinkedQueue

open CellRing

variable {A : Type} [DecidableEq A] {s : QueueState A} {cells loose : List A}
  {entries : List (Bytes × Nat)}

/-! ### Searches -/

omit [DecidableEq A] in
theorem cell_of_vals {heap : Heap A (Bytes × Nat)} {a : A} {e : Bytes × Nat}
    (h : vals heap a = some e) : ∃ i, heap a = some i ∧ i.val = e :=
  Option.map_eq_some_iff.mp h

omit [DecidableEq A] in
theorem exists_cell {heap : Heap A (Bytes × Nat)} {a b : A} {e : Bytes × Nat}
    (hval : vals heap a = some e) (hlink : Ring.Linked (links heap) a b) :
    ∃ i, heap a = some i ∧ i.val = e ∧ i.next = b := by
  obtain ⟨i, hi, hv⟩ := cell_of_vals hval
  obtain ⟨j, hj, hnext⟩ := Option.map_eq_some_iff.mp hlink.1
  rw [hi] at hj
  cases hj
  exact ⟨i, hi, hv, hnext⟩

/-- The search of a path from one cell on, which ends where the ring closes. -/
theorem findelemLoop_eq {heap : Heap A (Bytes × Nat)} {fname : Bytes} {head c : A} {l : List A}
    {e : Bytes × Nat} {es : List (Bytes × Nat)} {fuel : Nat}
    (hchain : List.IsChain (Ring.Linked (links heap)) (c :: (l ++ [head]))) (hhead : head ∉ l)
    (hvals : (c :: l).map (vals heap) = (e :: es).map some) (hfuel : l.length < fuel) :
    findelemLoop heap fname head fuel c =
      some ((c :: l).find? fun a => (vals heap a).map Prod.fst = some fname) := by
  induction l generalizing c e es fuel with
  | nil =>
      obtain ⟨more, rfl⟩ : ∃ more, fuel = more + 1 := ⟨fuel - 1, by simp at hfuel; omega⟩
      obtain ⟨hval, -⟩ := List.cons_eq_cons.mp hvals
      obtain ⟨i, hi, hv, hnext⟩ := exists_cell hval (List.isChain_cons_cons.mp hchain).1
      by_cases hname : e.1 = fname
      · simp [findelemLoop, hi, hv, hval, hname]
      · simp [findelemLoop, hi, hv, hval, hname, hnext]
  | cons d l ih =>
      obtain ⟨more, rfl⟩ : ∃ more, fuel = more + 1 := ⟨fuel - 1, by simp at hfuel; omega⟩
      obtain ⟨hval, hrest⟩ := List.cons_eq_cons.mp hvals
      obtain ⟨e', es', rfl⟩ : ∃ e' es', es = e' :: es' := by
        cases es with
        | nil => cases hrest
        | cons e' es' => exact ⟨e', es', rfl⟩
      obtain ⟨hlink, hchain'⟩ := List.isChain_cons_cons.mp hchain
      obtain ⟨i, hi, hv, hnext⟩ := exists_cell hval hlink
      have hne : d ≠ head := fun heq => hhead (heq ▸ List.mem_cons_self)
      have hrec := ih hchain' (fun hm => hhead (List.mem_cons_of_mem _ hm)) hrest
        (Nat.lt_of_succ_lt_succ hfuel)
      by_cases hname : e.1 = fname
      · simp [findelemLoop, hi, hv, hval, hname]
      · rw [List.find?_cons_of_neg (by simp [hval, hname]), ← hrec]
        simp [findelemLoop, hi, hv, hname, hnext, hne]

theorem Reads.findelem_eq (h : Reads s cells loose entries) {fuel : Nat}
    (hfuel : entries.length ≤ fuel) (fname : Bytes) :
    findelem fuel s fname =
      some (cells.find? fun a => (vals s.heap a).map Prod.fst = some fname) := by
  have hlen := h.length_eq
  have hreading := h.reading
  have hhead := h.head
  have hcycle := h.cycle
  have hnodup := h.nodup
  cases cells with
  | nil => simp [findelem, hhead]
  | cons c l =>
      cases entries with
      | nil => cases hlen
      | cons e es =>
          rw [List.head?_cons] at hhead
          rw [findelem, hhead]
          rw [List.length_cons, List.length_cons, Nat.succ_inj] at hlen
          refine findelemLoop_eq hcycle (List.nodup_cons.mp hnodup).1 hreading ?_
          rw [List.length_cons] at hfuel
          omega

theorem Reads.findelem_none (h : Reads s cells loose entries) {fuel : Nat}
    (hfuel : entries.length ≤ fuel) {fname : Bytes} (hout : fname ∉ entries.map Prod.fst) :
    findelem fuel s fname = some none := by
  rw [h.findelem_eq hfuel, Option.some.injEq, List.find?_eq_none]
  intro a ha
  have hmem : vals s.heap a ∈ entries.map some := h.reading ▸ List.mem_map_of_mem ha
  obtain ⟨e, he, heq⟩ := List.mem_map.mp hmem
  rw [← heq, Option.map_some, decide_eq_true_eq, Option.some.injEq]
  rintro rfl
  exact hout (List.mem_map_of_mem he)

theorem Reads.findelem_some {e : Bytes × Nat} {es₁ es₂ : List (Bytes × Nat)}
    (h : Reads s cells loose (es₁ ++ e :: es₂)) {fuel : Nat}
    (hfuel : (es₁ ++ e :: es₂).length ≤ fuel) (hdistinct : ((es₁ ++ e :: es₂).map Prod.fst).Nodup) :
    ∃ u a w, cells = u ++ a :: w ∧ u.map (vals s.heap) = es₁.map some ∧ vals s.heap a = some e ∧
      w.map (vals s.heap) = es₂.map some ∧ findelem fuel s e.1 = some (some a) := by
  obtain ⟨u, a, w, rfl, hu, ha, hw⟩ := h.split
  refine ⟨u, a, w, rfl, hu, ha, hw, ?_⟩
  rw [h.findelem_eq hfuel, Option.some.injEq]
  have hearlier : ∀ b ∈ u, ¬ ((vals s.heap b).map Prod.fst = some e.1) := by
    intro b hb heq
    have hmem : vals s.heap b ∈ es₁.map some := hu ▸ List.mem_map_of_mem hb
    obtain ⟨x, hx, hxb⟩ := List.mem_map.mp hmem
    rw [← hxb, Option.map_some, Option.some.injEq] at heq
    rw [List.map_append, List.map_cons, List.nodup_append] at hdistinct
    exact hdistinct.2.2 x.1 (List.mem_map_of_mem hx) e.1 List.mem_cons_self heq
  rw [List.find?_append, List.find?_eq_none.mpr (by simpa using hearlier), Option.none_or,
    List.find?_cons_of_pos (by simp [ha])]

/-! ### Removal -/

/-- The cell goes, and so does its entry; what is loose stays as it is. -/
theorem Reads.freed {u w : List A} {a : A} {e : Bytes × Nat} {es₁ es₂ : List (Bytes × Nat)}
    (h : Reads s (u ++ a :: w) loose (es₁ ++ e :: es₂)) (hu : u.map (vals s.heap) = es₁.map some)
    (hw : w.map (vals s.heap) = es₂.map some) {s' : QueueState A}
    (hcycle : Ring.Cycle (links s'.heap) (u ++ w))
    (hvals : vals s'.heap = Function.update (vals s.heap) a none)
    (hhead : s'.head = (u ++ w).head?) (htail : s'.tail = (u ++ w).getLast?) :
    Reads s' (u ++ w) loose (es₁ ++ es₂) ∧ ∀ b ∈ loose, vals s'.heap b = vals s.heap b := by
  have hnodup := List.nodup_middle.mp h.nodup
  obtain ⟨hout, hnd⟩ := List.nodup_cons.mp hnodup
  have hkeep : ∀ b, b ≠ a → vals s'.heap b = vals s.heap b := by
    intro b hb
    rw [hvals, Function.update_of_ne hb]
  have hloose : ∀ b ∈ loose, b ≠ a := by
    rintro b hb rfl
    exact h.apart b hb (by simp)
  refine ⟨⟨hnd, hcycle, hhead, htail, ?_, ?_, ?_⟩, fun b hb => hkeep b (hloose b hb)⟩
  · have hsame : (u ++ w).map (vals s'.heap) = (u ++ w).map (vals s.heap) :=
      List.map_congr_left fun b hb => hkeep b fun heq => hout (heq ▸ hb)
    rw [hsame, List.map_append, hu, hw, List.map_append]
  · intro b
    by_cases hb : b = a
    · subst hb
      rw [hvals, Function.update_self]
      simp only [Option.isSome_none, Bool.false_eq_true, false_iff, not_or]
      exact ⟨hout, fun hm => hloose b hm rfl⟩
    · rw [hkeep b hb, h.live]
      simp [hb]
  · intro b hb hm
    have hin := h.apart b hb
    simp only [List.mem_append, List.mem_cons] at hin hm
    tauto

omit [DecidableEq A] in
theorem Reads.live_of_mem (h : Reads s cells loose entries) :
    ∀ a ∈ cells, (vals s.heap a).isSome := fun a ha => (h.live a).mpr (.inl ha)

omit [DecidableEq A] in
theorem Reads.next_eq {u w : List A} {a : A} (h : Reads s (u ++ a :: w) loose entries)
    {i : Cell A (Bytes × Nat)} (hi : s.heap a = some i) :
    (w ++ u ++ [a]).head? = some i.next := by
  have hrot := (rotated h.cycle h.nodup).1
  have hnext : (links s.heap).next a = some i.next := by simp [links, hi]
  cases hrest : w ++ u with
  | nil =>
      rw [hrest] at hrot
      rw [List.nil_append, List.head?_cons, ← (List.isChain_cons_cons.mp hrot).1.1, hnext]
  | cons b l =>
      rw [hrest] at hrot
      rw [List.cons_append, List.head?_cons, ← (List.isChain_cons_cons.mp hrot).1.1, hnext]

omit [DecidableEq A] in
theorem Reads.prev_eq {u w : List A} {a b : A} (h : Reads s (u ++ [b] ++ a :: w) loose entries)
    {i : Cell A (Bytes × Nat)} (hi : s.heap a = some i) : i.prev = b := by
  have hchain := h.cycle.isChain
  rw [List.append_assoc, List.singleton_append, List.isChain_append] at hchain
  have hlink : Ring.Linked (links s.heap) b a := (List.isChain_cons_cons.mp hchain.2.1).1
  obtain ⟨j, hj, hprev⟩ := Option.map_eq_some_iff.mp hlink.2
  rw [hi] at hj
  cases hj
  exact hprev

theorem remqueHead_spec {a : A} {w : List A} {e : Bytes × Nat} {es : List (Bytes × Nat)}
    (h : Reads s (a :: w) loose (e :: es)) :
    ∃ s', remqueHead s = some s' ∧ Reads s' w loose es ∧
      ∀ b ∈ loose, vals s'.heap b = vals s.heap b := by
  obtain ⟨hval, hw⟩ := List.cons_eq_cons.mp h.reading
  obtain ⟨i, hi, -⟩ := cell_of_vals hval
  obtain ⟨heap, hheap, hvals, hcycle⟩ :=
    remque_spec (u := []) (h := s.heap) h.cycle h.nodup h.live_of_mem
  have hhead : s.head = some a := h.head
  have hnext := h.next_eq (u := []) hi
  have hfront : Reads s ([] ++ a :: w) loose ([] ++ e :: es) := h
  cases w with
  | nil =>
      obtain rfl : a = i.next := Option.some.inj hnext
      refine ⟨⟨free heap i.next, none, none⟩, ?_,
        hfront.freed rfl hw hcycle hvals rfl rfl⟩
      simp only [remqueHead, hhead, hi, hheap, Option.bind_eq_bind, Option.bind_some, if_true]
  | cons b w =>
      obtain rfl : b = i.next := Option.some.inj hnext
      have hne : a ≠ i.next := by
        rintro heq
        have hnd := h.nodup
        rw [← heq] at hnd
        exact (List.nodup_cons.mp hnd).1 List.mem_cons_self
      refine ⟨{ s with heap := free heap a, head := some i.next }, ?_,
        hfront.freed rfl hw hcycle hvals rfl ?_⟩
      · simp only [remqueHead, hhead, hi, hheap, Option.bind_eq_bind, Option.bind_some, if_neg hne]
      · exact h.tail

/-- A cell is taken out wherever it stands: first, last or in between. -/
theorem remElem_spec {u w : List A} {a : A} {e : Bytes × Nat} {es₁ es₂ : List (Bytes × Nat)}
    (h : Reads s (u ++ a :: w) loose (es₁ ++ e :: es₂)) (hu : u.map (vals s.heap) = es₁.map some)
    (ha : vals s.heap a = some e) (hw : w.map (vals s.heap) = es₂.map some) :
    ∃ s', remElem a s = some s' ∧ Reads s' (u ++ w) loose (es₁ ++ es₂) ∧
      ∀ b ∈ loose, vals s'.heap b = vals s.heap b := by
  cases u with
  | nil =>
      obtain rfl : es₁ = [] := by simpa using hu.symm
      have hhead : some a = s.head := h.head.symm
      obtain ⟨s', hs', hreads, hkeep⟩ := remqueHead_spec h
      exact ⟨s', by rw [remElem, if_pos hhead, hs'], hreads, hkeep⟩
  | cons b u =>
      obtain ⟨i, hi, -⟩ := cell_of_vals ha
      have hnd := h.nodup
      have hab : a ≠ b := by
        rintro rfl
        exact (List.nodup_cons.mp hnd).1 (by simp)
      have hhead : s.head = some b := h.head
      have hnothead : some a ≠ s.head := by simpa [hhead] using hab
      obtain ⟨heap, hheap, hvals, hcycle⟩ := remque_spec h.cycle h.nodup h.live_of_mem
      cases w with
      | nil =>
          have htail : some a = s.tail := by
            rw [h.tail]
            exact List.getLast?_concat.symm
          obtain ⟨init, last, hlast⟩ : ∃ init last, b :: u = init ++ [last] :=
            ⟨_, _, (List.dropLast_concat_getLast (List.cons_ne_nil b u)).symm⟩
          have hprev : i.prev = last := by
            have h' := h
            rw [hlast] at h'
            exact h'.prev_eq hi
          refine ⟨{ s with heap := free heap a, tail := some i.prev }, ?_,
            h.freed hu hw hcycle hvals (hhead.trans rfl) ?_⟩
          · simp only [remElem, if_neg hnothead, if_pos htail, hi, hheap, Option.bind_eq_bind,
              Option.bind_some]
          · rw [List.append_nil, hlast, List.getLast?_concat, hprev]
      | cons c w =>
          have hlast : (b :: u ++ a :: c :: w).getLast? = (b :: u ++ c :: w).getLast? := by
            rw [List.getLast?_append, List.getLast?_append, List.getLast?_cons_cons]
          have hnottail : some a ≠ s.tail := by
            rw [h.tail, hlast]
            intro heq
            have hmem : a ∈ b :: u ++ c :: w := List.mem_of_getLast? heq.symm
            exact (List.nodup_cons.mp (List.nodup_middle.mp hnd)).1 hmem
          refine ⟨{ s with heap := free heap a }, ?_,
            h.freed hu hw hcycle hvals (hhead.trans rfl) (h.tail.trans hlast)⟩
          simp only [remElem, if_neg hnothead, if_neg hnottail, hheap, Option.bind_eq_bind,
            Option.bind_some]

theorem filter_split {e : Bytes × Nat} {es₁ es₂ : List (Bytes × Nat)}
    (h : ((es₁ ++ e :: es₂).map Prod.fst).Nodup) :
    (es₁ ++ e :: es₂).filter (·.1 ≠ e.1) = es₁ ++ es₂ := by
  rw [List.map_append, List.map_cons, List.nodup_middle, List.nodup_cons, ← List.map_append] at h
  have hkeep : (es₁ ++ es₂).filter (·.1 ≠ e.1) = es₁ ++ es₂ := by
    apply List.filter_eq_self.mpr
    intro x hx
    exact decide_eq_true fun heq => h.1 (heq ▸ List.mem_map_of_mem hx)
  rw [List.filter_append, List.filter_cons_of_neg (by simp), ← List.filter_append, hkeep]

theorem rmelem_spec (h : Reads s cells loose entries) (hdistinct : (entries.map Prod.fst).Nodup)
    {fuel : Nat} (hfuel : entries.length ≤ fuel) (fname : Bytes) :
    ∃ s' cells', rmelem fuel fname s = some s' ∧
      Reads s' cells' loose (entries.filter (·.1 ≠ fname)) ∧ cells' ⊆ cells ∧
      ∀ b ∈ loose, vals s'.heap b = vals s.heap b := by
  by_cases hin : fname ∈ entries.map Prod.fst
  · obtain ⟨e, he, rfl⟩ := List.mem_map.mp hin
    obtain ⟨es₁, es₂, rfl⟩ := List.append_of_mem he
    obtain ⟨u, a, w, rfl, hu, ha, hw, hfind⟩ := h.findelem_some hfuel hdistinct
    obtain ⟨s', hs', hreads, hkeep⟩ := remElem_spec h hu ha hw
    obtain ⟨b, hb⟩ : ∃ b, s.head = some b := by
      rw [h.head]
      exact Option.isSome_iff_exists.mp (by simp)
    have hsub : (u ++ w).Sublist (u ++ a :: w) :=
      List.Sublist.append_left (List.sublist_cons_self a w) u
    refine ⟨s', u ++ w, ?_, ?_, hsub.subset, hkeep⟩
    · simp only [rmelem, hb, hfind, Option.bind_eq_bind, Option.bind_some, hs']
    · rw [filter_split hdistinct]
      exact hreads
  · have hsame : entries.filter (·.1 ≠ fname) = entries := by
      apply List.filter_eq_self.mpr
      intro e he
      exact decide_eq_true fun heq => hin (heq ▸ List.mem_map_of_mem he)
    refine ⟨s, cells, ?_, hsame.symm ▸ h, List.Subset.refl cells, fun b _ => rfl⟩
    cases hhead : s.head with
    | none => simp only [rmelem, hhead]
    | some b =>
        simp only [rmelem, hhead, h.findelem_none hfuel hin, Option.bind_eq_bind, Option.bind_some]

/-! ### Insertion -/

section Insertion

variable {elem : A} {e : Bytes × Nat}

omit [DecidableEq A] in
theorem Reads.joined {u w : List A} {es₁ es₂ : List (Bytes × Nat)}
    (h : Reads s (u ++ w) [elem] (es₁ ++ es₂)) (hlen : u.length = es₁.length)
    (helem : vals s.heap elem = some e) {s' : QueueState A}
    (hcycle : Ring.Cycle (links s'.heap) (u ++ elem :: w)) (hvals : vals s'.heap = vals s.heap)
    (hhead : s'.head = (u ++ elem :: w).head?) (htail : s'.tail = (u ++ elem :: w).getLast?) :
    Reads s' (u ++ elem :: w) [] (es₁ ++ e :: es₂) := by
  have hout : elem ∉ u ++ w := h.apart elem (List.mem_singleton_self elem)
  have hreading := h.reading
  rw [List.map_append, List.map_append] at hreading
  obtain ⟨hu, hw⟩ := List.append_inj hreading (by simpa using hlen)
  refine ⟨List.nodup_middle.mpr (List.nodup_cons.mpr ⟨hout, h.nodup⟩), hcycle, hhead, htail, ?_, ?_,
    by simp⟩
  · rw [hvals, List.map_append, List.map_cons, hu, helem, hw, List.map_append, List.map_cons]
  · intro a
    rw [hvals, h.live]
    simp only [List.mem_append, List.mem_cons, List.not_mem_nil, or_false]
    tauto

theorem insqueFirst_spec (h : Reads s [] [elem] []) (helem : vals s.heap elem = some e) :
    ∃ s', insqueFirst elem s = some s' ∧ Reads s' [elem] [] [e] := by
  have hlive : (vals s.heap elem).isSome := by
    rw [helem]
    rfl
  have hnone : Reads s ([] ++ []) [elem] ([] ++ []) := h
  obtain ⟨h₁, h₂, h₃, hs₁, hs₂, hs₃, hvals, hcycle⟩ := insque_alone hlive
  refine ⟨⟨h₃, some elem, some elem⟩, ?_, hnone.joined rfl helem hcycle hvals rfl rfl⟩
  simp only [insqueFirst, hs₁, hs₂, hs₃, Option.bind_eq_bind, Option.bind_some]

/-- Insertion behind the last cell: the ring may be read from the new cell, or up to it. -/
theorem insque_last {b : A} {l : List A} {last : A} (h : Reads s (b :: l) [elem] entries)
    (helem : vals s.heap elem = some e) (hlast : (b :: l).getLast? = some last) :
    ∃ heap, insque elem last s.heap = some heap ∧ vals heap = vals s.heap ∧
      Ring.Cycle (links heap) (b :: l ++ [elem]) := by
  obtain ⟨init, hinit⟩ := List.getLast?_eq_some_iff.mp hlast
  have h' := h
  rw [hinit] at h'
  obtain ⟨heap, hheap, hvals, hcycle⟩ := insque_spec (w := []) h'.cycle h'.nodup h'.live_of_mem
    (by rw [helem]; rfl) (h'.apart elem (List.mem_singleton_self elem))
  refine ⟨heap, hheap, hvals, ?_⟩
  rw [hinit, List.append_assoc]
  exact hcycle

theorem insque_behind_last (h : Reads s cells [elem] entries) (helem : vals s.heap elem = some e)
    {last : A} (hlast : cells.getLast? = some last) :
    ∃ heap, insque elem last s.heap = some heap ∧
      Reads { s with heap := heap, tail := some elem } (cells ++ [elem]) [] (entries ++ [e]) := by
  cases cells with
  | nil => cases hlast
  | cons b l =>
      obtain ⟨heap, hheap, hvals, hcycle⟩ := insque_last h helem hlast
      have h' : Reads s (b :: l ++ []) [elem] (entries ++ []) := by simpa using h
      refine ⟨heap, hheap, h'.joined (by simpa using h.length_eq) helem hcycle hvals ?_ ?_⟩
      · exact h.head
      · exact List.getLast?_concat.symm

theorem insque_before_head (h : Reads s cells [elem] entries) (helem : vals s.heap elem = some e)
    {last : A} (hlast : cells.getLast? = some last) :
    ∃ heap, insque elem last s.heap = some heap ∧
      Reads { s with heap := heap, head := some elem } (elem :: cells) [] (e :: entries) := by
  cases cells with
  | nil => cases hlast
  | cons b l =>
      obtain ⟨heap, hheap, hvals, hcycle⟩ := insque_last h helem hlast
      have hfront : Reads s ([] ++ b :: l) [elem] ([] ++ entries) := h
      refine ⟨heap, hheap, hfront.joined rfl helem ?_ hvals rfl ?_⟩
      · rw [List.nil_append]
        exact Ring.Cycle.rotate hcycle
      · exact h.tail

theorem insque_between {u w : List A} {prev c : A} {es₁ es₂ : List (Bytes × Nat)}
    (h : Reads s (u ++ [prev] ++ c :: w) [elem] (es₁ ++ es₂))
    (hlen : (u ++ [prev]).length = es₁.length) (helem : vals s.heap elem = some e) :
    ∃ heap, insque elem prev s.heap = some heap ∧
      Reads { s with heap := heap } (u ++ [prev] ++ elem :: c :: w) [] (es₁ ++ e :: es₂) := by
  have hshape : u ++ [prev] ++ c :: w = u ++ prev :: (c :: w) := by simp
  have hcycle := h.cycle
  have hnodup := h.nodup
  have hlive := h.live_of_mem
  have hout := h.apart elem (List.mem_singleton_self elem)
  rw [hshape] at hcycle hnodup hlive hout
  obtain ⟨heap, hheap, hvals, hcycle'⟩ := insque_spec hcycle hnodup hlive (by rw [helem]; rfl) hout
  refine ⟨heap, hheap, h.joined hlen helem ?_ hvals ?_ ?_⟩
  · simpa using hcycle'
  · exact h.head.trans (by cases u <;> rfl)
  · exact h.tail.trans (by simp [List.getLast?_append, List.getLast?_cons_cons])

theorem insqueTail_spec (h : Reads s cells [elem] entries) (helem : vals s.heap elem = some e) :
    ∃ s' cells', insqueTail elem s = some s' ∧ Reads s' cells' [] (entries ++ [e]) ∧
      cells' ⊆ elem :: cells := by
  have htail := h.tail
  have hhead := h.head
  cases cells with
  | nil =>
      obtain rfl : entries = [] := List.length_eq_zero_iff.mp h.length_eq.symm
      obtain ⟨s', hs', hreads⟩ := insqueFirst_spec h helem
      rw [List.head?_nil] at hhead
      exact ⟨s', [elem], by rw [insqueTail, hhead, hs'], hreads, List.Subset.refl _⟩
  | cons b l =>
      obtain ⟨last, hlast⟩ : ∃ last, (b :: l).getLast? = some last :=
        Option.isSome_iff_exists.mp (by simp)
      obtain ⟨heap, hheap, hreads⟩ := insque_behind_last h helem hlast
      rw [List.head?_cons] at hhead
      rw [hlast] at htail
      refine ⟨_, _, ?_, hreads, by simp⟩
      simp only [insqueTail, hhead, htail, hheap, Option.bind_eq_bind, Option.bind_some]

/-- **`insque_lru`** moves the name to the end of the queue. -/
theorem insqueLru_spec (h : Reads s cells [elem] entries)
    (hdistinct : (entries.map Prod.fst).Nodup) (helem : vals s.heap elem = some e) {fuel : Nat}
    (hfuel : entries.length ≤ fuel) :
    ∃ s' cells', insqueLru fuel elem s = some s' ∧
      Reads s' cells' [] (entries.filter (·.1 ≠ e.1) ++ [e]) ∧ cells' ⊆ elem :: cells := by
  obtain ⟨i, hi, rfl⟩ := cell_of_vals helem
  obtain ⟨s₁, cells₁, hs₁, hreads, hsub, hkeep⟩ := rmelem_spec h hdistinct hfuel i.val.1
  have helem₁ : vals s₁.heap elem = some i.val := by
    rw [hkeep elem (List.mem_singleton_self elem), helem]
  have hfind := h.findelem_eq hfuel i.val.1
  have hcode : insqueLru fuel elem s = insqueTail elem s₁ := by
    rw [insqueLru, hi, Option.bind_eq_bind, Option.bind_some, findelemLru, hfind]
    rw [Option.bind_eq_bind, Option.bind_some]
    split
    · rw [rmelemLru, hs₁, Option.bind_eq_bind, Option.bind_some]
    · next hnone =>
      -- with nothing to remove the removal is no change
      have hsame : some s = some s₁ := by
        rw [Bool.not_eq_true, Option.isSome_eq_false_iff, Option.isNone_iff_eq_none] at hnone
        rw [← hs₁, rmelem]
        cases s.head with
        | none => rfl
        | some b => rw [hfind, hnone, Option.bind_eq_bind, Option.bind_some]
      rw [hsame, Option.bind_eq_bind, Option.bind_some]
  obtain ⟨s', cells', hs', hfinal, hsub'⟩ := insqueTail_spec hreads helem₁
  exact ⟨s', cells', hcode.trans hs', hfinal, List.Subset.trans hsub' (List.cons_subset_cons elem hsub)⟩

/-- Where `get_pos_lfu` stops: at the first cell of a higher frequency, or back at the head. -/
theorem getPosLoop_eq {heap : Heap A (Bytes × Nat)} {freq : Nat} {head c : A} {l u w : List A}
    {es₁ es₂ : List (Bytes × Nat)} {fuel : Nat}
    (hchain : List.IsChain (Ring.Linked (links heap)) (c :: (l ++ [head]))) (hhead : head ∉ l)
    (hcells : c :: l = u ++ w) (hu : u.map (vals heap) = es₁.map some)
    (hw : w.map (vals heap) = es₂.map some) (hlow : ∀ x ∈ es₁, ¬ freq < x.2)
    (hhigh : ∀ x ∈ es₂.head?, freq < x.2) (hfuel : l.length < fuel) :
    getPosLoop heap freq head fuel c = some (w.head?.isSome, w.head?.getD head) := by
  induction u generalizing c l es₁ fuel with
  | nil =>
      obtain ⟨more, rfl⟩ : ∃ more, fuel = more + 1 := ⟨fuel - 1, by omega⟩
      subst hcells
      cases es₂ with
      | nil => cases hw
      | cons e es =>
          obtain ⟨hval, -⟩ := List.cons_eq_cons.mp hw
          obtain ⟨i, hi, hv⟩ := cell_of_vals hval
          have hlt : freq < i.val.2 := hv ▸ hhigh e rfl
          simp [getPosLoop, hi, hlt]
  | cons x u ih =>
      obtain ⟨more, rfl⟩ : ∃ more, fuel = more + 1 := ⟨fuel - 1, by omega⟩
      obtain ⟨rfl, hl⟩ := List.cons_eq_cons.mp hcells
      change l = u ++ w at hl
      subst hl
      cases es₁ with
      | nil => cases hu
      | cons e es₁ =>
          obtain ⟨hval, hu'⟩ := List.cons_eq_cons.mp hu
          cases hrest : u ++ w with
          | nil =>
              rw [hrest] at hchain
              obtain ⟨i, hi, hv, hnext⟩ := exists_cell hval (List.isChain_cons_cons.mp hchain).1
              obtain ⟨-, rfl⟩ := List.append_eq_nil_iff.mp hrest
              have hle : ¬ freq < i.val.2 := hv ▸ hlow e List.mem_cons_self
              simp [getPosLoop, hi, hle, hnext]
          | cons d l =>
              rw [hrest] at hchain hhead hfuel
              obtain ⟨hlink, hchain'⟩ := List.isChain_cons_cons.mp hchain
              obtain ⟨i, hi, hv, hnext⟩ := exists_cell hval hlink
              have hle : ¬ freq < i.val.2 := hv ▸ hlow e List.mem_cons_self
              have hne : d ≠ head := fun heq => hhead (heq ▸ List.mem_cons_self)
              have hrec := ih hchain' (fun hm => hhead (List.mem_cons_of_mem _ hm)) hrest.symm hu'
                (fun x hx => hlow x (List.mem_cons_of_mem _ hx)) (Nat.lt_of_succ_lt_succ hfuel)
              rw [← hrec]
              simp [getPosLoop, hi, hle, hnext, hne]

theorem insertByFreq_split (e : Bytes × Nat) (l : List (Bytes × Nat)) : ∃ es₁ es₂,
    l = es₁ ++ es₂ ∧ insertByFreq e l = es₁ ++ e :: es₂ ∧ (∀ x ∈ es₁, ¬ e.2 < x.2) ∧
      ∀ x ∈ es₂.head?, e.2 < x.2 := by
  induction l with
  | nil => exact ⟨[], [], rfl, rfl, by simp, by simp⟩
  | cons curr rest ih =>
      unfold insertByFreq
      split
      · next hlt => exact ⟨[], curr :: rest, rfl, rfl, by simp, by simpa using hlt⟩
      · next hge =>
        obtain ⟨es₁, es₂, rfl, hins, hlow, hhigh⟩ := ih
        refine ⟨curr :: es₁, es₂, rfl, by rw [hins]; rfl, ?_, hhigh⟩
        intro x hx
        rcases List.mem_cons.mp hx with rfl | hx
        · exact hge
        · exact hlow x hx

theorem getPosLfu_eq {u w : List A} {es₁ es₂ : List (Bytes × Nat)}
    (h : Reads s (u ++ w) [elem] (es₁ ++ es₂)) (helem : vals s.heap elem = some e)
    (hne : u ++ w ≠ []) (hu : u.map (vals s.heap) = es₁.map some)
    (hw : w.map (vals s.heap) = es₂.map some) (hlow : ∀ x ∈ es₁, ¬ e.2 < x.2)
    (hhigh : ∀ x ∈ es₂.head?, e.2 < x.2) {fuel : Nat} (hfuel : (es₁ ++ es₂).length ≤ fuel) :
    getPosLfu fuel elem s = some u.getLast? := by
  obtain ⟨i, hi, rfl⟩ := cell_of_vals helem
  obtain ⟨b, l, hcells⟩ := List.exists_cons_of_ne_nil hne
  have hcycle := h.cycle
  have hnd := h.nodup
  have hhead : s.head = some b := by rw [h.head, hcells, List.head?_cons]
  have hlen := h.length_eq
  rw [hcells] at hcycle hnd
  have hloop := getPosLoop_eq hcycle (List.nodup_cons.mp hnd).1 hcells.symm hu hw hlow hhigh
    (show l.length < fuel by
      rw [hcells, List.length_cons] at hlen
      omega)
  cases w with
  | nil =>
      -- no cell of a higher frequency: the tail
      obtain ⟨last, hlast⟩ : ∃ last, u.getLast? = some last :=
        Option.isSome_iff_exists.mp (by simpa using hne)
      have htail : s.tail = some last := by rw [h.tail, List.append_nil, hlast]
      simp only [getPosLfu, hhead, hi, hloop, htail, hlast, Option.bind_eq_bind, Option.bind_some,
        Option.map_some, List.head?_nil, Option.getD_none, if_true, Option.isSome_none,
        Bool.false_eq_true, if_false]
  | cons a w =>
      obtain ⟨y, ys, rfl⟩ : ∃ y ys, es₂ = y :: ys := by
        cases es₂ with
        | nil => cases hw
        | cons y ys => exact ⟨y, ys, rfl⟩
      rcases List.eq_nil_or_concat' u with rfl | ⟨u, prev, rfl⟩
      · -- the first cell is higher already
        obtain ⟨rfl, -⟩ := List.cons_eq_cons.mp hcells
        simp only [getPosLfu, hhead, hi, hloop, Option.bind_eq_bind, Option.bind_some,
          List.head?_cons, Option.getD_some, Option.isSome_some, if_true, List.getLast?_nil]
      · have hba : b ≠ a := by
          have hb : b ∈ u ++ [prev] := by
            cases u with
            | nil => exact (List.cons_eq_cons.mp hcells).1 ▸ List.mem_cons_self
            | cons c u => exact (List.cons_eq_cons.mp hcells).1 ▸ List.mem_cons_self
          exact (List.nodup_append.mp h.nodup).2.2 b hb a List.mem_cons_self
        obtain ⟨j, hj, -⟩ := cell_of_vals (List.cons_eq_cons.mp hw).1
        have hprev : j.prev = prev := h.prev_eq hj
        simp only [getPosLfu, hhead, hi, hloop, hj, hprev, Option.bind_eq_bind, Option.bind_some,
          List.head?_cons, Option.getD_some, if_neg hba, List.getLast?_concat]

/-- The new cell goes in front of the first one of a higher frequency. -/
theorem insqueAtPos_spec (h : Reads s cells [elem] entries) (helem : vals s.heap elem = some e)
    {fuel : Nat} (hfuel : entries.length ≤ fuel) :
    ∃ s' cells', insqueAtPos fuel elem s = some s' ∧ Reads s' cells' [] (insertByFreq e entries) ∧
      cells' ⊆ elem :: cells := by
  have hhead := h.head
  cases cells with
  | nil =>
      obtain rfl : entries = [] := List.length_eq_zero_iff.mp h.length_eq.symm
      obtain ⟨s', hs', hreads⟩ := insqueFirst_spec h helem
      rw [List.head?_nil] at hhead
      exact ⟨s', [elem], by rw [insqueAtPos, hhead, hs'], hreads, List.Subset.refl _⟩
  | cons b l =>
      obtain ⟨es₁, es₂, rfl, hins, hlow, hhigh⟩ := insertByFreq_split e entries
      have hreading := h.reading
      rw [List.map_append, List.map_eq_append_iff] at hreading
      obtain ⟨u, w, hcells, hu, hw⟩ := hreading
      obtain ⟨last, hlast⟩ : ∃ last, (b :: l).getLast? = some last :=
        Option.isSome_iff_exists.mp (by simp)
      have htail : s.tail = some last := h.tail.trans hlast
      have hpos : getPosLfu fuel elem s = some u.getLast? :=
        getPosLfu_eq (hcells ▸ h) helem (by simp [← hcells]) hu hw hlow hhigh hfuel
      have hlen : u.length = es₁.length := by simpa using congrArg List.length hu
      rw [List.head?_cons] at hhead
      rw [hins]
      rcases List.eq_nil_or_concat' u with rfl | ⟨u, prev, rfl⟩
      · -- in front of the head
        obtain rfl : es₁ = [] := List.length_eq_zero_iff.mp hlen.symm
        obtain ⟨heap, hheap, hreads⟩ := insque_before_head h helem hlast
        refine ⟨_, _, ?_, hreads, List.Subset.refl _⟩
        simp only [insqueAtPos, hhead, hpos, htail, hheap, Option.bind_eq_bind, Option.bind_some,
          List.getLast?_nil]
      · rw [List.getLast?_concat] at hpos
        cases w with
        | nil =>
            -- behind the tail
            obtain rfl : es₂ = [] := by simpa using hw.symm
            obtain rfl : last = prev := by simpa [hcells] using hlast.symm
            obtain ⟨heap, hheap, hreads⟩ := insque_behind_last h helem hlast
            rw [List.append_nil] at hreads
            refine ⟨_, _, ?_, hreads, by simp⟩
            simp only [insqueAtPos, hhead, hpos, htail, hheap, Option.bind_eq_bind,
              Option.bind_some, if_true]
        | cons a w =>
            -- in between
            rw [hcells] at h hlast ⊢
            obtain ⟨heap, hheap, hreads⟩ := insque_between h hlen helem
            have hne : last ≠ prev := by
              have hmem : last ∈ a :: w := by
                rw [List.getLast?_append] at hlast
                obtain ⟨y, hy⟩ : ∃ y, (a :: w).getLast? = some y :=
                  Option.isSome_iff_exists.mp (by simp)
                rw [hy, Option.some_or, Option.some.injEq] at hlast
                exact hlast ▸ List.mem_of_getLast? hy
              exact ((List.nodup_append.mp h.nodup).2.2 prev (by simp) last hmem).symm
            refine ⟨_, _, ?_, hreads, List.perm_middle.subset⟩
            simp only [insqueAtPos, hhead, hpos, htail, hheap, Option.bind_eq_bind,
              Option.bind_some, Option.some.injEq, if_neg hne]

theorem Reads.setLoose (h : Reads s cells [elem] entries) (v : Bytes × Nat) :
    ∃ heap, setVal s.heap elem v = some heap ∧
      Reads { s with heap := heap } cells [elem] entries ∧ vals heap elem = some v := by
  have hlive : (vals s.heap elem).isSome := (h.live elem).mpr (.inr (List.mem_singleton_self elem))
  obtain ⟨heap, hheap, hlinks, hvals⟩ := setVal_spec hlive v
  have hout : elem ∉ cells := h.apart elem (List.mem_singleton_self elem)
  have hself : vals heap elem = some v := by rw [hvals, Function.update_self]
  have hkeep : ∀ a, a ≠ elem → vals heap a = vals s.heap a := by
    intro a ha
    rw [hvals, Function.update_of_ne ha]
  refine ⟨heap, hheap, ⟨h.nodup, ?_, h.head, h.tail, ?_, ?_, h.apart⟩, hself⟩
  · change Ring.Cycle (links heap) cells
    rw [hlinks]
    exact h.cycle
  · rw [← h.reading]
    exact List.map_congr_left fun a ha => hkeep a fun heq => hout (heq ▸ ha)
  · intro a
    by_cases ha : a = elem
    · subst ha
      simp [hself]
    · change (vals heap a).isSome ↔ _
      rw [hkeep a ha, h.live]

theorem entries_insque_of_some {q : LfuQueue} {fname : Bytes} {n : Nat}
    (h : q.freq fname = some n) : (q.insque fname).entries =
      insertByFreq (fname, n + 1) (q.entries.filter (·.1 ≠ fname)) := by
  simp [LfuQueue.insque, h]

theorem entries_insque_of_none {q : LfuQueue} {fname : Bytes} (h : q.freq fname = none) :
    (q.insque fname).entries = insertByFreq (fname, 1) (q.entries.filter (·.1 ≠ fname)) := by
  simp [LfuQueue.insque, h]

/-- **`insque_lfu`** raises the frequency of a name that is there and moves it behind the last entry
of that frequency. -/
theorem insqueLfu_spec {q : LfuQueue} {fname : Bytes} (h : Reads s cells [elem] q.entries)
    (helem : vals s.heap elem = some (fname, 1)) {fuel : Nat} (hfuel : q.entries.length ≤ fuel)
    (hroom : ∀ n ∈ q.freq fname, n < intMax) :
    ∃ s' cells', insqueLfu fuel elem s = some s' ∧ Reads s' cells' [] (q.insque fname).entries ∧
      cells' ⊆ elem :: cells := by
  obtain ⟨i, hi, hval⟩ := cell_of_vals helem
  by_cases hin : fname ∈ q.entries.map Prod.fst
  · obtain ⟨⟨name, n⟩, he, rfl⟩ := List.mem_map.mp hin
    have hfreq : q.freq name = some n := LfuQueue.freq_of_mem he
    obtain ⟨es₁, es₂, hsplit⟩ := List.append_of_mem he
    have h' := h
    have hdistinct := q.nodup
    have hfuel' := hfuel
    rw [hsplit] at h' hdistinct hfuel'
    obtain ⟨u, a, w, rfl, hu, ha, hw, hfind⟩ := h'.findelem_some hfuel' hdistinct
    obtain ⟨j, hj, hjval⟩ := cell_of_vals ha
    obtain ⟨heap, hheap, hset, helem₁⟩ := h.setLoose (name, n + 1)
    obtain ⟨s₁, cells₁, hs₁, hreads, hsub, hkeep⟩ := rmelem_spec hset q.nodup hfuel name
    have helem₂ : vals s₁.heap elem = some (name, n + 1) :=
      (hkeep elem (List.mem_singleton_self elem)).trans helem₁
    have hlen := (List.length_filter_le (fun x => decide (x.1 ≠ name)) q.entries).trans hfuel
    obtain ⟨s', cells', hs', hfinal, hsub'⟩ := insqueAtPos_spec hreads helem₂ hlen
    refine ⟨s', cells', ?_, ?_, List.Subset.trans hsub' (List.cons_subset_cons elem hsub)⟩
    · have hlt : ¬ intMax ≤ n := Nat.not_le.mpr (hroom n hfreq)
      have hfound : insqueFound fuel elem a s = some s₁ := by
        simp only [insqueFound, hj, hjval, hi, hval, if_neg hlt, hheap, rmelemLfu, hs₁,
          Option.bind_eq_bind, Option.bind_some]
      simp only [insqueLfu, findelemLfu, hi, hval, hfind, hfound, hs', Option.bind_eq_bind,
        Option.bind_some]
    · rw [entries_insque_of_some hfreq]
      exact hfinal
  · have hfreq : q.freq fname = none := by
      rw [LfuQueue.freq, Option.map_eq_none_iff, List.find?_eq_none]
      intro e he heq
      exact hin (of_decide_eq_true heq ▸ List.mem_map_of_mem he)
    have hsame : q.entries.filter (·.1 ≠ fname) = q.entries := by
      apply List.filter_eq_self.mpr
      intro e he
      exact decide_eq_true fun heq => hin (heq ▸ List.mem_map_of_mem he)
    obtain ⟨s', cells', hs', hfinal, hsub⟩ := insqueAtPos_spec h helem hfuel
    refine ⟨s', cells', ?_, ?_, hsub⟩
    · simp only [insqueLfu, findelemLfu, hi, hval, h.findelem_none hfuel hin, hs',
        Option.bind_eq_bind, Option.bind_some]
    · rw [entries_insque_of_none hfreq, hsame]
      exact hfinal

/-- At the largest `int` the sum overflows. -/
theorem insqueLfu_overflow {q : LfuQueue} {fname : Bytes} {n : Nat}
    (h : Reads s cells [elem] q.entries) (helem : vals s.heap elem = some (fname, 1)) {fuel : Nat}
    (hfuel : q.entries.length ≤ fuel) (hn : q.freq fname = some n) (hfull : intMax ≤ n) :
    insqueLfu fuel elem s = none := by
  obtain ⟨i, hi, hval⟩ := cell_of_vals helem
  obtain ⟨⟨name, m⟩, hfound, rfl⟩ := Option.map_eq_some_iff.mp hn
  obtain rfl : name = fname := by simpa using List.find?_some hfound
  obtain ⟨es₁, es₂, hsplit⟩ := List.append_of_mem (List.mem_of_find?_eq_some hfound)
  have hdistinct := q.nodup
  rw [hsplit] at h hdistinct hfuel
  obtain ⟨u, a, w, rfl, -, ha, -, hfind⟩ := h.findelem_some hfuel hdistinct
  obtain ⟨j, hj, hjval⟩ := cell_of_vals ha
  have hnone : insqueFound fuel elem a s = none := by
    simp only [insqueFound, hj, hjval, hi, hval, if_pos hfull, Option.bind_eq_bind,
      Option.bind_some]
  simp only [insqueLfu, findelemLfu, hi, hval, hfind, hnone, Option.bind_eq_bind, Option.bind_some,
    Option.bind_none]

end Insertion

end FusionFS.LinkedQueue
