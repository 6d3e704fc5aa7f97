import FusionFS.Clock

/-!
# The clock ring

What `ins_Q` and `rem_Q` do to the ring, wherever the head, the tail and the victim pointer stand.
-/

namespace FusionFS

open ClockState

variable {A : Type} [DecidableEq A]

/-- The allocated cells form one ring, which the head and the tail close. -/
structure RingState (s : ClockState A) (cells : List A) : Prop where
  nodup : cells.Nodup
  live : ∀ a, (s.content a).isSome ↔ a ∈ cells
  cycle : Ring.Cycle s.links cells
  head : s.clockHead = cells.head?
  tail : s.clockTail = cells.getLast?

omit [DecidableEq A] in
theorem RingState.empty : RingState (ClockState.empty : ClockState A) [] :=
  ⟨List.nodup_nil, by simp [ClockState.content, ClockState.empty], trivial, rfl, rfl⟩

omit [DecidableEq A] in
theorem exists_inode {s : ClockState A} {a x y : A} (hnext : s.links.next a = some x)
    (hprev : s.links.prev a = some y) :
    ∃ i, s.heap a = some i ∧ i.next = x ∧ i.prev = y := by
  obtain ⟨i, hi, hx⟩ := Option.map_eq_some_iff.mp hnext
  refine ⟨i, hi, hx, ?_⟩
  simpa [links, hi] using hprev

section StepOff

variable (s : ClockState A) (elem : A) (i : Inode A)

theorem stepOff_heap : (stepOff elem i s).heap = s.heap := by
  simp only [stepOff]
  split_ifs <;> rfl

theorem stepOff_clockHead : (stepOff elem i s).clockHead
    = if some elem = s.clockHead then some i.next else s.clockHead := by
  simp only [stepOff]
  split_ifs <;> rfl

theorem stepOff_clockTail : (stepOff elem i s).clockTail
    = if some elem = s.clockHead then s.clockTail
      else if some elem = s.clockTail then some i.prev else s.clockTail := by
  simp only [stepOff]
  split_ifs <;> rfl

theorem stepOff_victim : (stepOff elem i s).victim
    = if s.victim = some elem then some i.next else s.victim := by
  simp only [stepOff]
  split_ifs <;> simp_all

theorem stepOff_links : (stepOff elem i s).links = s.links := by
  rw [links, stepOff_heap, links]

theorem stepOff_content : (stepOff elem i s).content = s.content := by
  funext a
  rw [content, stepOff_heap, content]

end StepOff

theorem content_free (s : ClockState A) (elem : A) :
    (s.free elem).content = Function.update s.content elem none := by
  funext a
  by_cases ha : a = elem
  · subst ha
    simp [content, free]
  · simp [content, free, ha]

theorem links_free_of_ne (s : ClockState A) {elem a : A} (ha : a ≠ elem) :
    (s.free elem).links.next a = s.links.next a ∧ (s.free elem).links.prev a = s.links.prev a := by
  simp [links, free, ha]

omit [DecidableEq A] in
theorem RingState.rotated {s : ClockState A} {u w : List A} {v : A}
    (h : RingState s (u ++ v :: w)) : Ring.Cycle s.links (v :: (w ++ u)) ∧ (v :: (w ++ u)).Nodup := by
  have hperm : (u ++ v :: w).Perm (v :: (w ++ u)) :=
    List.perm_middle.trans (List.Perm.cons v List.perm_append_comm)
  refine ⟨?_, hperm.nodup_iff.mp h.nodup⟩
  simpa using Ring.Cycle.rotate h.cycle

theorem head?_removed {u w : List A} {elem x : A} (hnodup : (u ++ elem :: w).Nodup)
    (hx : (w ++ u).head? = some x) :
    (if some elem = (u ++ elem :: w).head? then some x else (u ++ elem :: w).head?)
      = (u ++ w).head? := by
  cases u with
  | nil =>
      rw [List.append_nil] at hx
      simp [hx]
  | cons b u =>
      have hbe : elem ≠ b := by
        rintro rfl
        simp at hnodup
      simp [hbe]

/-- The last cell once a cell is out, unless the ring has no other. -/
theorem getLast?_removed {u w : List A} {elem y : A} (hnodup : (u ++ elem :: w).Nodup)
    (hy : (w ++ u).getLast? = some y) :
    (if some elem = (u ++ elem :: w).head? then (u ++ elem :: w).getLast?
      else if some elem = (u ++ elem :: w).getLast? then some y else (u ++ elem :: w).getLast?)
      = (u ++ w).getLast? := by
  cases w with
  | nil =>
      rw [List.nil_append] at hy
      cases u with
      | nil => cases hy
      | cons b u =>
          have hlast : (b :: u ++ [elem]).getLast? = some elem := List.getLast?_concat
          have hbe : elem ≠ b := by
            rintro rfl
            simp at hnodup
          rw [List.append_nil, hlast, hy, if_neg (by simpa using hbe), if_pos rfl]
  | cons b w =>
      have hlast : (u ++ elem :: b :: w).getLast? = (u ++ b :: w).getLast? := by
        simp [List.getLast?_append, List.getLast?_cons_cons]
      have hne : some elem ≠ (u ++ b :: w).getLast? := by
        intro hlast'
        have hmem : elem ∈ u ++ b :: w := List.mem_of_getLast? hlast'.symm
        rw [List.nodup_middle] at hnodup
        exact (List.nodup_cons.mp hnodup).1 hmem
      rw [hlast, if_neg hne, ite_self]

/-- **Removal.** `rem_Q` takes a cell out of the ring; a hand that stood on it moves to the next. -/
theorem remQ_spec {s : ClockState A} {u w : List A} {elem : A} (h : RingState s (u ++ elem :: w)) :
    ∃ s', remQ elem s = some s' ∧ RingState s' (u ++ w) ∧
      s'.content = Function.update s.content elem none ∧
      s'.victim = if u ++ w = [] then none
        else if s.victim = some elem then (w ++ u).head? else s.victim := by
  obtain ⟨hrot, hnodup⟩ := h.rotated
  have hlive : ∀ a, (Function.update s.content elem none a).isSome ↔ a ∈ u ++ w := by
    intro a
    by_cases ha : a = elem
    · subst ha
      have hout := (List.nodup_cons.mp hnodup).1
      simp only [Function.update_self, Option.isSome_none, Bool.false_eq_true, false_iff]
      exact fun hmem => hout (by simpa [or_comm] using hmem)
    · rw [Function.update_of_ne ha, h.live]
      simp [ha]
  cases hrest : w ++ u with
  | nil =>
      -- the only cell: the ring is gone
      obtain ⟨rfl, rfl⟩ := List.append_eq_nil_iff.mp hrest
      have hself : Ring.Linked s.links elem elem := hrot.last_linked_head rfl
      obtain ⟨i, hi, hnext, -⟩ := exists_inode hself.1 hself.2
      refine ⟨{ s with victim := none, clockHead := none, clockTail := none }.free elem, ?_,
        ⟨List.nodup_nil, ?_, trivial, rfl, rfl⟩, content_free _ elem, rfl⟩
      · simp only [remQ, hi, Option.bind_eq_bind, Option.bind_some, hnext, if_true]
      · intro a
        rw [content_free]
        exact hlive a
  | cons x l =>
      rw [hrest] at hrot hnodup
      obtain ⟨y, hy⟩ : ∃ y, (x :: l).getLast? = some y :=
        Option.isSome_iff_exists.mp (by simp)
      have hex : Ring.Linked s.links elem x := (List.isChain_cons_cons.mp hrot).1
      have hye : Ring.Linked s.links y elem :=
        hrot.last_linked_head (by rw [List.getLast?_cons_cons, hy])
      obtain ⟨i, hi, hnext, hprev⟩ := exists_inode hex.1 hye.2
      have hxmem : x ∈ u ++ w := by
        have : x ∈ w ++ u := by simp [hrest]
        simpa [or_comm] using this
      have hymem : y ∈ u ++ w := by
        have : y ∈ w ++ u := by
          rw [hrest]
          exact List.mem_of_getLast? hy
        simpa [or_comm] using this
      have hout := (List.nodup_cons.mp hnodup).1
      have hxe : x ≠ elem := fun heq => hout (heq ▸ List.mem_cons_self)
      have hye' : y ≠ elem := fun heq => hout (heq ▸ List.mem_of_getLast? hy)
      have hxlive : ((stepOff elem i s).content x).isSome := by
        rw [stepOff_content, h.live]
        simp only [List.mem_append, List.mem_cons] at hxmem ⊢
        tauto
      have hylive : ((stepOff elem i s).content y).isSome := by
        rw [stepOff_content, h.live]
        simp only [List.mem_append, List.mem_cons] at hymem ⊢
        tauto
      obtain ⟨s₁, hs₁, hkeep₁, hnext₁, hprev₁⟩ := setNext_spec hylive x
      obtain ⟨s₂, hs₂, hkeep₂, hprev₂, hnext₂⟩ :=
        setPrev_spec (s := s₁) (a := x) (by rw [hkeep₁.content]; exact hxlive) y
      have hkeep := hkeep₁.trans hkeep₂
      have hne : u ++ w ≠ [] := List.ne_nil_of_mem hxmem
      have hcontent : (s₂.free elem).content = Function.update s.content elem none := by
        rw [content_free, hkeep.content, stepOff_content]
      refine ⟨s₂.free elem, ?_, ⟨?_, ?_, ?_, ?_, ?_⟩, hcontent, ?_⟩
      · simp only [remQ, hi, Option.bind_eq_bind, Option.bind_some, hnext, hprev,
          if_neg (Ne.symm hxe), hs₁, hs₂]
      · have hsub : (u ++ w).Sublist (u ++ elem :: w) :=
          List.Sublist.append_left (List.sublist_cons_self _ _) u
        exact h.nodup.sublist hsub
      · intro a
        rw [hcontent]
        exact hlive a
      · refine Ring.Cycle.rotate (p := w) (q := u) ?_
        rw [hrest]
        refine hrot.unlink hnodup hy ?_ ?_ ?_
        · constructor
          · rw [(links_free_of_ne s₂ hye').1, hnext₂, hnext₁, Function.update_self]
          · rw [(links_free_of_ne s₂ hxe).2, hprev₂, Function.update_self]
        · intro a hae hay
          rw [(links_free_of_ne s₂ hae).1, hnext₂, hnext₁, Function.update_of_ne hay, stepOff_links]
        · intro a hae hax
          rw [(links_free_of_ne s₂ hae).2, hprev₂, Function.update_of_ne hax, hprev₁, stepOff_links]
      · change s₂.clockHead = _
        rw [hkeep.head, stepOff_clockHead, h.head, hnext]
        exact head?_removed h.nodup (by rw [hrest, List.head?_cons])
      · change s₂.clockTail = _
        rw [hkeep.tail, stepOff_clockTail, h.head, h.tail, hprev]
        exact getLast?_removed h.nodup (by rw [hrest, hy])
      · change s₂.victim = _
        rw [hkeep.hand, stepOff_victim, if_neg hne, hnext]
        rfl

theorem content_malloc (s : ClockState A) (elem : A) (junk : Inode A) (fname : Bytes) :
    (s.malloc elem junk fname).content = Function.update s.content elem (some (fname, true)) := by
  funext a
  by_cases ha : a = elem
  · subst ha
    simp [content, malloc]
  · simp [content, malloc, ha]

theorem links_malloc_of_ne (s : ClockState A) {elem a : A} (junk : Inode A) (fname : Bytes)
    (ha : a ≠ elem) : (s.malloc elem junk fname).links.next a = s.links.next a ∧
      (s.malloc elem junk fname).links.prev a = s.links.prev a := by
  simp [links, malloc, ha]

/-- A ring whose neighbours of the joint are relinked around a new cell. -/
theorem RingState.insert {s s' : ClockState A} {u w : List A} {elem : A} {e : Bytes × Bool}
    (h : RingState s (u ++ w)) (hfresh : elem ∉ u ++ w)
    (hcontent : s'.content = Function.update s.content elem (some e))
    (hcycle : Ring.Cycle s'.links (u ++ elem :: w)) (hhead : s'.clockHead = (u ++ elem :: w).head?)
    (htail : s'.clockTail = (u ++ elem :: w).getLast?) : RingState s' (u ++ elem :: w) := by
  refine ⟨?_, ?_, hcycle, hhead, htail⟩
  · exact List.nodup_middle.mpr (List.nodup_cons.mpr ⟨hfresh, h.nodup⟩)
  · intro a
    rw [hcontent]
    by_cases ha : a = elem
    · subst ha
      simp
    · rw [Function.update_of_ne ha, h.live]
      simp [ha]

/-- **Insertion with a hand.** The new cell goes in front of the victim. -/
theorem insQ_spec_of_victim {s : ClockState A} {u w : List A} {elem v : A} (junk : Inode A)
    (fname : Bytes) (h : RingState s (u ++ v :: w)) (hfresh : elem ∉ u ++ v :: w)
    (hvictim : s.victim = some v) :
    ∃ s', insQ elem (s.malloc elem junk fname) = some s' ∧ RingState s' (u ++ elem :: v :: w) ∧
      s'.content = Function.update s.content elem (some (fname, true)) ∧ s'.victim = some v := by
  obtain ⟨hrot, hnodup⟩ := h.rotated
  have hnew : elem ∉ v :: (w ++ u) := by
    simp only [List.mem_append, List.mem_cons] at hfresh ⊢
    tauto
  obtain ⟨y, hy⟩ : ∃ y, (v :: (w ++ u)).getLast? = some y := Option.isSome_iff_exists.mp (by simp)
  have hyv : Ring.Linked s.links y v := hrot.last_linked_head hy
  have hve : v ≠ elem := fun heq => hnew (heq ▸ List.mem_cons_self)
  have hye : y ≠ elem := fun heq => hnew (heq ▸ List.mem_of_getLast? hy)
  have hymem : y ∈ u ++ v :: w := by
    have := List.mem_of_getLast? hy
    simp only [List.mem_append, List.mem_cons] at this ⊢
    tauto
  -- the head moves to the new cell when the hand stood on it
  set s₀ : ClockState A :=
    if (s.malloc elem junk fname).victim = (s.malloc elem junk fname).clockHead then
      { s.malloc elem junk fname with clockHead := some elem }
    else s.malloc elem junk fname with hs₀
  have hheap₀ : s₀.heap = (s.malloc elem junk fname).heap := by
    rw [hs₀]
    split <;> rfl
  have hcontent₀ : s₀.content = Function.update s.content elem (some (fname, true)) := by
    rw [← content_malloc s elem junk fname]
    funext a
    rw [content, hheap₀, content]
  have hlinks₀ : s₀.links = (s.malloc elem junk fname).links := by rw [links, hheap₀, links]
  have hlive₀ : ∀ a, a = elem ∨ a ∈ u ++ v :: w → (s₀.content a).isSome := by
    rintro a (rfl | ha)
    · simp [hcontent₀]
    · rw [hcontent₀, Function.update_of_ne (fun heq : a = elem => hfresh (heq ▸ ha)), h.live]
      exact ha
  obtain ⟨s₁, hs₁, hkeep₁, hnext₁, hprev₁⟩ := setNext_spec (hlive₀ y (Or.inr hymem)) elem
  obtain ⟨s₂, hs₂, hkeep₂, hnext₂, hprev₂⟩ :=
    setNext_spec (s := s₁) (a := elem) (by rw [hkeep₁.content]; exact hlive₀ _ (Or.inl rfl)) v
  have hkeep₁₂ := hkeep₁.trans hkeep₂
  obtain ⟨s₃, hs₃, hkeep₃, hprev₃, hnext₃⟩ :=
    setPrev_spec (s := s₂) (a := v)
      (by rw [hkeep₁₂.content]; exact hlive₀ _ (Or.inr (by simp))) elem
  have hkeep₁₃ := hkeep₁₂.trans hkeep₃
  obtain ⟨s₄, hs₄, hkeep₄, hprev₄, hnext₄⟩ :=
    setPrev_spec (s := s₃) (a := elem) (by rw [hkeep₁₃.content]; exact hlive₀ _ (Or.inl rfl)) y
  have hkeep := hkeep₁₃.trans hkeep₄
  have hprev₀ : s₀.links.prev v = some y := by
    rw [hlinks₀, (links_malloc_of_ne s junk fname hve).2, hyv.2]
  have hcontent : s₄.content = Function.update s.content elem (some (fname, true)) := by
    rw [hkeep.content, hcontent₀]
  refine ⟨s₄, ?_, h.insert hfresh hcontent ?_ ?_ ?_, hcontent, ?_⟩
  · have hv : (s.malloc elem junk fname).victim = some v := hvictim
    simp only [insQ, hv, Option.bind_eq_bind]
    rw [← hv, ← hs₀, hprev₀, Option.bind_some, hs₁, Option.bind_some, hs₂, Option.bind_some, hs₃,
      Option.bind_some, hs₄]
  · refine Ring.Cycle.rotate (p := elem :: v :: w) (q := u) ?_
    refine Ring.Cycle.insert (k := s.links) (y := y) hrot hnodup hnew hy ?_ ?_ ?_ ?_
    · constructor
      · rw [hnext₄, hnext₃, hnext₂, Function.update_self]
      · rw [hprev₄, Function.update_of_ne hve, hprev₃, Function.update_self]
    · constructor
      · rw [hnext₄, hnext₃, hnext₂, Function.update_of_ne hye, hnext₁, Function.update_self]
      · rw [hprev₄, Function.update_self]
    · intro a hae hay
      rw [hnext₄, hnext₃, hnext₂, Function.update_of_ne hae, hnext₁, Function.update_of_ne hay,
        hlinks₀, (links_malloc_of_ne s junk fname hae).1]
    · intro a hae hav
      rw [hprev₄, Function.update_of_ne hae, hprev₃, Function.update_of_ne hav, hprev₂, hprev₁,
        hlinks₀, (links_malloc_of_ne s junk fname hae).2]
  · have hhead₀ : s₀.clockHead = if s.victim = s.clockHead then some elem else s.clockHead := by
      rw [hs₀]
      change (if s.victim = s.clockHead then _ else _ : ClockState A).clockHead = _
      split <;> rfl
    rw [hkeep.head, hhead₀, hvictim, h.head]
    cases u with
    | nil => simp
    | cons b u =>
        have hvb : v ≠ b := fun heq => by
          have := h.nodup
          simp [heq] at this
        simp [hvb]
  · have htail₀ : s₀.clockTail = s.clockTail := by
      rw [hs₀]
      split <;> rfl
    rw [hkeep.tail, htail₀, h.tail]
    simp [List.getLast?_append, List.getLast?_cons_cons]
  · have hvictim₀ : s₀.victim = s.victim := by
      rw [hs₀]
      split <;> rfl
    rw [hkeep.hand, hvictim₀, hvictim]

/-- **Insertion without a hand.** The new cell becomes the tail. -/
theorem insQ_spec_of_no_victim {s : ClockState A} {b : A} {l : List A} {elem : A} (junk : Inode A)
    (fname : Bytes) (h : RingState s (b :: l)) (hfresh : elem ∉ b :: l) (hvictim : s.victim = none) :
    ∃ s', insQ elem (s.malloc elem junk fname) = some s' ∧ RingState s' (b :: l ++ [elem]) ∧
      s'.content = Function.update s.content elem (some (fname, true)) ∧ s'.victim = none := by
  obtain ⟨y, hy⟩ : ∃ y, (b :: l).getLast? = some y := Option.isSome_iff_exists.mp (by simp)
  have hyb : Ring.Linked s.links y b := h.cycle.last_linked_head hy
  have hbe : b ≠ elem := fun heq => hfresh (heq ▸ List.mem_cons_self)
  have hye : y ≠ elem := fun heq => hfresh (heq ▸ List.mem_of_getLast? hy)
  set s₀ : ClockState A := s.malloc elem junk fname with hs₀
  have hcontent₀ : s₀.content = Function.update s.content elem (some (fname, true)) :=
    content_malloc s elem junk fname
  have hlive₀ : ∀ a, a = elem ∨ a ∈ b :: l → (s₀.content a).isSome := by
    rintro a (rfl | ha)
    · simp [hcontent₀]
    · rw [hcontent₀, Function.update_of_ne (fun heq : a = elem => hfresh (heq ▸ ha)), h.live]
      exact ha
  obtain ⟨s₁, hs₁, hkeep₁, hprev₁, hnext₁⟩ := setPrev_spec (hlive₀ elem (Or.inl rfl)) y
  obtain ⟨s₂, hs₂, hkeep₂, hnext₂, hprev₂⟩ :=
    setNext_spec (s := s₁) (a := elem) (by rw [hkeep₁.content]; exact hlive₀ _ (Or.inl rfl)) b
  have hkeep₁₂ := hkeep₁.trans hkeep₂
  obtain ⟨s₃, hs₃, hkeep₃, hnext₃, hprev₃⟩ :=
    setNext_spec (s := s₂) (a := y)
      (by rw [hkeep₁₂.content]; exact hlive₀ _ (Or.inr (List.mem_of_getLast? hy))) elem
  have hkeep₁₃ := hkeep₁₂.trans hkeep₃
  obtain ⟨s₄, hs₄, hkeep₄, hprev₄, hnext₄⟩ :=
    setPrev_spec (s := { s₃ with clockTail := some elem }) (a := b)
      (by
        change (s₃.content b).isSome
        rw [hkeep₁₃.content]
        exact hlive₀ _ (Or.inr List.mem_cons_self)) elem
  have hnext₁' : s₁.links.next y = some b := by
    rw [hnext₁, hs₀, (links_malloc_of_ne s junk fname hye).1, hyb.1]
  have hcontent : s₄.content = Function.update s.content elem (some (fname, true)) := by
    rw [hkeep₄.content]
    change s₃.content = _
    rw [hkeep₁₃.content, hcontent₀]
  have hlinks₃ : ({ s₃ with clockTail := some elem } : ClockState A).links = s₃.links := rfl
  rw [hlinks₃] at hprev₄ hnext₄
  refine ⟨s₄, ?_, RingState.insert (u := b :: l) (w := []) (by simpa using h) (by simpa using hfresh)
    hcontent ?_ ?_ ?_, hcontent, ?_⟩
  · have hv : s₀.victim = none := hvictim
    have htail : s₀.clockTail = some y := h.tail.trans hy
    have hhead : s₃.clockHead = some b := by
      rw [hkeep₁₃.head]
      exact h.head
    simp only [insQ, hv, htail, Option.bind_eq_bind, Option.bind_some, hs₁, hnext₁', hs₂, hs₃, hhead]
    rw [← hhead]
    exact hs₄
  · refine Ring.Cycle.rotate (p := [elem]) (q := b :: l) ?_
    refine Ring.Cycle.insert (k := s.links) (y := y) h.cycle h.nodup hfresh hy ?_ ?_ ?_ ?_
    · constructor
      · rw [hnext₄, hnext₃, Function.update_of_ne (Ne.symm hye), hnext₂, Function.update_self]
      · rw [hprev₄, Function.update_self]
    · constructor
      · rw [hnext₄, hnext₃, Function.update_self]
      · rw [hprev₄, Function.update_of_ne (Ne.symm hbe), hprev₃, hprev₂, hprev₁,
          Function.update_self]
    · intro a hae hay
      rw [hnext₄, hnext₃, Function.update_of_ne hay, hnext₂, Function.update_of_ne hae, hnext₁, hs₀,
        (links_malloc_of_ne s junk fname hae).1]
    · intro a hae hab
      rw [hprev₄, Function.update_of_ne hab, hprev₃, hprev₂, hprev₁, Function.update_of_ne hae, hs₀,
        (links_malloc_of_ne s junk fname hae).2]
  · rw [hkeep₄.head]
    change s₃.clockHead = _
    rw [hkeep₁₃.head]
    exact h.head
  · rw [hkeep₄.tail]
    exact List.getLast?_concat.symm
  · rw [hkeep₄.hand]
    change s₃.victim = _
    rw [hkeep₁₃.hand]
    exact hvictim

end FusionFS
