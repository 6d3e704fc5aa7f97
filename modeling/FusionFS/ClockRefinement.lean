import FusionFS.ClockRing

/-!
# The clock queue is a second-chance queue

Read once along `next`, from the victim pointer or from the head when there is no victim yet, the
ring is a second-chance queue of names, and each operation of `clock.c` is the queue's own.
-/

namespace FusionFS

open ClockState SecondChance

variable {A : Type} [DecidableEq A]

/-! ### The loops over the ring -/

def named (s : ClockState A) (fname : Bytes) (a : A) : Bool :=
  (s.content a).map Prod.fst = some fname

omit [DecidableEq A] in
theorem heap_of_linked {s : ClockState A} {a b : A} (h : Ring.Linked s.links a b) :
    ∃ i, s.heap a = some i ∧ i.next = b :=
  Option.map_eq_some_iff.mp h.1

omit [DecidableEq A] in
theorem named_of_heap {s : ClockState A} {fname : Bytes} {a : A} {i : Inode A}
    (hi : s.heap a = some i) : named s fname a = decide (i.fname = fname) := by
  simp [named, content, hi]

theorem findelemLoop_eq {s : ClockState A} {fname : Bytes} {head c : A} {l : List A} {fuel : Nat}
    (hchain : List.IsChain (Ring.Linked s.links) (c :: (l ++ [head]))) (hhead : head ∉ l)
    (hfuel : l.length < fuel) :
    findelemLoop s fname head fuel c = some ((c :: l).find? (named s fname)) := by
  induction l generalizing c fuel with
  | nil =>
      obtain ⟨more, rfl⟩ : ∃ more, fuel = more + 1 := ⟨fuel - 1, by simp at hfuel; omega⟩
      obtain ⟨i, hi, hnext⟩ := heap_of_linked (List.isChain_cons_cons.mp hchain).1
      by_cases hname : i.fname = fname
      · simp [findelemLoop, hi, named_of_heap hi, hname]
      · simp [findelemLoop, hi, named_of_heap hi, hname, hnext]
  | cons d l ih =>
      obtain ⟨more, rfl⟩ : ∃ more, fuel = more + 1 := ⟨fuel - 1, by simp at hfuel; omega⟩
      obtain ⟨hlink, hrest⟩ := List.isChain_cons_cons.mp hchain
      obtain ⟨i, hi, hnext⟩ := heap_of_linked hlink
      have hne : d ≠ head := fun heq => hhead (heq ▸ List.mem_cons_self)
      have hrec := ih hrest (fun hm => hhead (List.mem_cons_of_mem _ hm)) (Nat.lt_of_succ_lt_succ hfuel)
      by_cases hname : i.fname = fname
      · simp [findelemLoop, hi, named_of_heap hi, hname]
      · rw [List.find?_cons_of_neg (by simp [named_of_heap hi, hname]), ← hrec]
        simp [findelemLoop, hi, hname, hnext, hne]

theorem logLoop_isSome {s : ClockState A} {head c : A} {l : List A} {fuel : Nat}
    (hchain : List.IsChain (Ring.Linked s.links) (c :: (l ++ [head]))) (hhead : head ∉ l)
    (hfuel : l.length < fuel) : (logLoop s head fuel c).isSome := by
  induction l generalizing c fuel with
  | nil =>
      obtain ⟨more, rfl⟩ : ∃ more, fuel = more + 1 := ⟨fuel - 1, by simp at hfuel; omega⟩
      obtain ⟨i, hi, hnext⟩ := heap_of_linked (List.isChain_cons_cons.mp hchain).1
      simp [logLoop, hi, hnext]
  | cons d l ih =>
      obtain ⟨more, rfl⟩ : ∃ more, fuel = more + 1 := ⟨fuel - 1, by simp at hfuel; omega⟩
      obtain ⟨hlink, hrest⟩ := List.isChain_cons_cons.mp hchain
      obtain ⟨i, hi, hnext⟩ := heap_of_linked hlink
      have hne : d ≠ head := fun heq => hhead (heq ▸ List.mem_cons_self)
      have hrec := ih hrest (fun hm => hhead (List.mem_cons_of_mem _ hm)) (Nat.lt_of_succ_lt_succ hfuel)
      simpa [logLoop, hi, hnext, hne] using hrec

theorem RingState.findelemClock_eq {s : ClockState A} {cells : List A} (h : RingState s cells)
    {fuel : Nat} (hfuel : cells.length ≤ fuel) (fname : Bytes) :
    findelemClock fuel s fname = some (cells.find? (named s fname)) := by
  cases cells with
  | nil => simp [findelemClock, h.head]
  | cons c l =>
      have hhead := h.head
      rw [List.head?_cons] at hhead
      rw [findelemClock, hhead]
      exact findelemLoop_eq h.cycle (List.nodup_cons.mp h.nodup).1 hfuel

theorem RingState.logQueue_isSome {s : ClockState A} {cells : List A} (h : RingState s cells)
    (hne : cells ≠ []) {fuel : Nat} (hfuel : cells.length ≤ fuel) : (logQueue fuel s).isSome := by
  cases cells with
  | nil => exact absurd rfl hne
  | cons c l =>
      have hhead := h.head
      rw [List.head?_cons] at hhead
      rw [logQueue, hhead]
      exact logLoop_isSome h.cycle (List.nodup_cons.mp h.nodup).1 hfuel

/-! ### What the ring stands for -/

/-- The victim pointer stands where the second part of the ring begins. Before its first use it is
`NULL`, and the first part is empty. -/
def HandAt (s : ClockState A) (p q : List A) : Prop :=
  (s.victim = none ∧ p = []) ∨ ∃ v w, q = v :: w ∧ s.victim = some v

omit [DecidableEq A] in
theorem RingState.moveHand {s : ClockState A} {cells : List A} (h : RingState s cells)
    (victim : Option A) : RingState { s with victim := victim } cells :=
  ⟨h.nodup, h.live, h.cycle, h.head, h.tail⟩

/-- The ring, cut at the victim, reads as the queue. -/
structure Represents (s : ClockState A) (p q : List A) (view : Queue Bytes) : Prop where
  ring : RingState s (p ++ q)
  hand : HandAt s p q
  reading : (q ++ p).map s.content = view.map some
  distinct : (names view).Nodup

namespace Represents

variable {s s' : ClockState A} {p q : List A} {view : Queue Bytes}

omit [DecidableEq A] in
theorem length_eq (h : Represents s p q view) : (p ++ q).length = view.length := by
  have := congrArg List.length h.reading
  simp only [List.length_map, List.length_append] at this ⊢
  omega

omit [DecidableEq A] in
theorem names_eq (h : Represents s p q view) :
    (q ++ p).map (fun a => (s.content a).map Prod.fst) = (names view).map some := by
  have := congrArg (List.map (Option.map Prod.fst)) h.reading
  simpa [names, Function.comp_def] using this

omit [DecidableEq A] in
theorem eq_of_named (h : Represents s p q view) {fname : Bytes} {a b : A} (ha : a ∈ q ++ p)
    (hb : b ∈ q ++ p) (hna : named s fname a) (hnb : named s fname b) : a = b := by
  have hnodup : ((q ++ p).map fun a => (s.content a).map Prod.fst).Nodup := by
    rw [h.names_eq]
    exact h.distinct.map fun _ _ => Option.some.inj
  refine List.inj_on_of_nodup_map hnodup ha hb ?_
  simp only [named, decide_eq_true_eq] at hna hnb
  rw [hna, hnb]

omit [DecidableEq A] in
theorem mem_names_iff (h : Represents s p q view) (fname : Bytes) :
    fname ∈ names view ↔ ∃ a ∈ q ++ p, named s fname a := by
  have hmem : fname ∈ names view ↔ some fname ∈ (names view).map some := by simp
  rw [hmem, ← h.names_eq, List.mem_map]
  simp [named]

omit [DecidableEq A] in
theorem not_mem_names_of_find (h : Represents s p q view) {fname : Bytes}
    (hfind : (p ++ q).find? (named s fname) = none) : fname ∉ names view := by
  rw [h.mem_names_iff]
  rintro ⟨a, ha, hna⟩
  have hout := List.find?_eq_none.mp hfind a (by simpa [or_comm] using ha)
  exact hout hna

omit [DecidableEq A] in
theorem content_of_named (h : Represents s p q view) {fname : Bytes} {a : A} (ha : a ∈ p ++ q)
    (hna : named s fname a) : ∃ bit, s.content a = some (fname, bit) := by
  obtain ⟨e, he⟩ := Option.isSome_iff_exists.mp ((h.ring.live a).mpr ha)
  refine ⟨e.2, ?_⟩
  simp only [named, he, Option.map_some, decide_eq_true_eq, Option.some.injEq] at hna
  rw [he, ← hna]

theorem recolor (h : Represents s p q view) {a : A} {e : Bytes × Bool} (ha : a ∈ p ++ q)
    (hlinks : s'.links = s.links) (hcontent : s'.content = Function.update s.content a (some e))
    (hhead : s'.clockHead = s.clockHead) (htail : s'.clockTail = s.clockTail) :
    RingState s' (p ++ q) := by
  refine ⟨h.ring.nodup, ?_, hlinks ▸ h.ring.cycle, hhead.trans h.ring.head,
    htail.trans h.ring.tail⟩
  intro b
  rw [hcontent]
  by_cases hb : b = a
  · subst hb
    simpa using ha
  · rw [Function.update_of_ne hb, h.ring.live]

end Represents

/-- `rem_Q` deletes the cell from the reading, wherever the hand is. -/
theorem remQ_reading {s : ClockState A} {p q : List A} {a : A} (hring : RingState s (p ++ q))
    (hhand : HandAt s p q) (ha : a ∈ p ++ q) :
    ∃ s' p' q', remQ a s = some s' ∧ RingState s' (p' ++ q') ∧ HandAt s' p' q' ∧
      q' ++ p' = (q ++ p).erase a ∧ s'.content = Function.update s.content a none := by
  have hnodup := hring.nodup
  rw [List.nodup_append] at hnodup
  obtain ⟨hp, hq, hdisj⟩ := hnodup
  rcases List.mem_append.mp ha with hap | haq
  · -- in front of the hand, which stays where it is
    obtain ⟨u, w, rfl⟩ := List.append_of_mem hap
    have hcut : RingState s (u ++ a :: (w ++ q)) := by simpa using hring
    obtain ⟨s', hs', hring', hcontent, hvictim⟩ := remQ_spec hcut
    have haq : a ∉ q := fun hm => hdisj a (by simp) a hm rfl
    have hau : a ∉ u := fun hm => (List.nodup_append.mp hp).2.2 a hm a (by simp) rfl
    rcases hhand with ⟨-, hnil⟩ | ⟨v, w', rfl, hv⟩
    · simp at hnil
    · have hva : v ≠ a := fun heq => haq (heq ▸ List.mem_cons_self)
      refine ⟨s', u ++ w, v :: w', hs', by simpa using hring', Or.inr ⟨v, w', rfl, ?_⟩, ?_, hcontent⟩
      · rw [hvictim, if_neg (by simp), hv, if_neg (by simpa using hva)]
      · rw [List.erase_append_right _ haq, List.erase_append_right _ hau, List.erase_cons_head]
  · obtain ⟨u, w, rfl⟩ := List.append_of_mem haq
    have hcut : RingState s (p ++ u ++ a :: w) := by simpa using hring
    obtain ⟨s', hs', hring', hcontent, hvictim⟩ := remQ_spec hcut
    have hau : a ∉ u := fun hm => (List.nodup_append.mp hq).2.2 a hm a (by simp) rfl
    have herase : (u ++ a :: w ++ p).erase a = u ++ w ++ p := by
      rw [List.append_assoc, List.erase_append_right _ hau, List.cons_append, List.erase_cons_head,
        List.append_assoc]
    rcases hhand with ⟨hv, rfl⟩ | ⟨v, w', hcons, hv⟩
    · -- no hand yet
      rw [List.append_nil, List.append_nil] at herase
      refine ⟨s', [], u ++ w, hs', by simpa using hring', Or.inl ⟨?_, rfl⟩, ?_, hcontent⟩
      · rw [hvictim, hv]
        simp
      · rw [List.append_nil, List.append_nil, herase]
    · cases u with
      | cons b u =>
          -- behind the hand, which stays where it is
          obtain ⟨rfl, -⟩ := List.cons_eq_cons.mp hcons
          have hba : b ≠ a := fun heq => hau (heq ▸ List.mem_cons_self)
          refine ⟨s', p, b :: u ++ w, hs', by simpa using hring', Or.inr ⟨b, u ++ w, rfl, ?_⟩,
            herase.symm, hcontent⟩
          rw [hvictim, if_neg (by simp), hv, if_neg (by simpa using hba)]
      | nil =>
          -- under the hand, which moves to the next cell
          obtain ⟨rfl, -⟩ := List.cons_eq_cons.mp hcons
          rw [hv, if_pos rfl, List.append_nil] at hvictim
          rw [List.append_nil] at hring'
          cases w with
          | nil =>
              refine ⟨s', [], p, hs', by simpa using hring', ?_, by simp, hcontent⟩
              cases p with
              | nil => exact Or.inl ⟨by simpa using hvictim, rfl⟩
              | cons x p => exact Or.inr ⟨x, p, rfl, by simpa using hvictim⟩
          | cons x w =>
              refine ⟨s', p, x :: w, hs', hring', Or.inr ⟨x, w, rfl, by simpa using hvictim⟩, by simp,
                hcontent⟩

omit [DecidableEq A] in
theorem RingState.head?_next {s : ClockState A} {u w : List A} {a : A} {i : Inode A}
    (h : RingState s (u ++ a :: w)) (hi : s.heap a = some i) :
    (w ++ u ++ [a]).head? = some i.next := by
  have hcycle : Ring.Cycle s.links (a :: (w ++ u)) := by simpa using h.cycle.rotate
  have hnext : s.links.next a = some i.next := by simp [links, hi]
  cases hrest : w ++ u with
  | nil =>
      rw [hrest] at hcycle
      rw [List.nil_append, List.head?_cons, ← (List.isChain_cons_cons.mp hcycle).1.1, hnext]
  | cons b l =>
      rw [hrest] at hcycle
      rw [List.cons_append, List.head?_cons, ← (List.isChain_cons_cons.mp hcycle).1.1, hnext]

omit [DecidableEq A] in
theorem RingState.alone {s : ClockState A} {u w : List A} {a : A} {i : Inode A}
    (h : RingState s (u ++ a :: w)) (hi : s.heap a = some i) (hself : a = i.next) :
    u = [] ∧ w = [] := by
  have hnext := h.head?_next hi
  have hnodup : (a :: (w ++ u)).Nodup := by
    have hperm : (u ++ a :: w).Perm (a :: (w ++ u)) :=
      List.perm_middle.trans (List.Perm.cons a List.perm_append_comm)
    exact hperm.nodup_iff.mp h.nodup
  cases hrest : w ++ u with
  | nil => exact (List.append_eq_nil_iff.mp hrest).symm
  | cons b l =>
      rw [hrest, List.cons_append, List.head?_cons, Option.some.injEq, ← hself] at hnext
      rw [hrest, hnext] at hnodup
      exact absurd List.mem_cons_self (List.nodup_cons.mp hnodup).1

/-! ### The operations -/

section Operations

variable {s : ClockState A} {p q : List A} {view : Queue Bytes}

theorem map_content_update_of_notMem {cells : List A} {a : A} {e : Option (Bytes × Bool)}
    (content : A → Option (Bytes × Bool)) (ha : a ∉ cells) :
    cells.map (Function.update content a e) = cells.map content := by
  refine List.map_congr_left fun b hb => Function.update_of_ne ?_ _ _
  rintro rfl
  exact ha hb

/-- `rmelem_clock` and the removals of `remque_clock` take the named entry out of the queue. -/
theorem Represents.remove (h : Represents s p q view) {a : A} {fname : Bytes} (ha : a ∈ p ++ q)
    (hna : named s fname a) :
    ∃ s' p' q', remQ a s = some s' ∧ Represents s' p' q' (rmelem fname view) := by
  obtain ⟨s', p', q', hs', hring, hhand, herase, hcontent⟩ := remQ_reading h.ring h.hand ha
  have ha' : a ∈ q ++ p := by simpa [or_comm] using ha
  have hnodup : (q ++ p).Nodup := (List.perm_append_comm.nodup_iff).mp h.ring.nodup
  refine ⟨s', p', q', hs', hring, hhand, ?_, nodup_names_rmelem h.distinct⟩
  have hout : a ∉ (q ++ p).erase a := fun hm => (List.Nodup.not_mem_erase hnodup) hm
  rw [herase, hcontent, map_content_update_of_notMem _ hout, hnodup.erase_eq_filter]
  have hfilter : (q ++ p).filter (fun b => b != a)
      = (q ++ p).filter ((fun e => e.map Prod.fst ≠ some fname) ∘ s.content) := by
    refine List.filter_congr fun b hb => ?_
    rw [Bool.eq_iff_iff, bne_iff_ne, Function.comp_apply, decide_eq_true_iff, not_iff_not]
    refine ⟨?_, fun hnb => h.eq_of_named hb ha' (decide_eq_true hnb) hna⟩
    rintro rfl
    exact of_decide_eq_true hna
  rw [hfilter, ← List.filter_map, h.reading, List.filter_map]
  refine congrArg (List.map some) (List.filter_congr fun e _ => ?_)
  simp only [Function.comp_apply, Option.map_some, ne_eq, Option.some.injEq]

theorem rmelemClock_spec (h : Represents s p q view) {fuel : Nat} (hfuel : view.length ≤ fuel)
    (fname : Bytes) :
    ∃ s' p' q', rmelemClock fuel fname s = some s' ∧ Represents s' p' q' (rmelem fname view) := by
  have hfind := h.ring.findelemClock_eq (h.length_eq.trans_le hfuel) fname
  cases hcell : (p ++ q).find? (named s fname) with
  | none =>
      have hout := h.not_mem_names_of_find hcell
      have hsame : rmelem fname view = view := by
        refine List.filter_eq_self.mpr fun e he => ?_
        simp only [ne_eq, decide_eq_true_eq]
        exact fun heq => hout (heq ▸ List.mem_map_of_mem he)
      refine ⟨s, p, q, ?_, hsame.symm ▸ h⟩
      rw [hcell] at hfind
      cases hhead : s.clockHead with
      | none => simp [rmelemClock, hhead]
      | some c => simp [rmelemClock, hhead, hfind]
  | some a =>
      have ha : a ∈ p ++ q := List.mem_of_find?_eq_some hcell
      have hna : named s fname a := List.find?_some hcell
      obtain ⟨s', p', q', hs', hrep⟩ := h.remove ha hna
      refine ⟨s', p', q', ?_, hrep⟩
      rw [hcell] at hfind
      cases hhead : s.clockHead with
      | none =>
          have := h.ring.head
          rw [hhead] at this
          rw [List.head?_eq_none_iff.mp this.symm] at ha
          simp at ha
      | some c => simp [rmelemClock, hhead, hfind, hs']

theorem Represents.mark (h : Represents s p q view) {a : A} {fname : Bytes} (ha : a ∈ p ++ q)
    (hna : named s fname a) :
    ∃ s', s.setRefBit a true = some s' ∧ Represents s' p q (insque fname view) := by
  obtain ⟨bit, hcell⟩ := h.content_of_named ha hna
  obtain ⟨s', hs', hlinks, hcontent, hhead, htail, hvictim⟩ := setRefBit_spec hcell true
  have ha' : a ∈ q ++ p := by simpa [or_comm] using ha
  have hmem : fname ∈ names view := (h.mem_names_iff fname).mpr ⟨a, ha', hna⟩
  refine ⟨s', hs', h.recolor ha hlinks hcontent hhead htail, ?_, ?_, nodup_names_insque h.distinct⟩
  · rcases h.hand with ⟨hv, hp⟩ | ⟨v, w, hq, hv⟩
    · exact Or.inl ⟨hvictim.trans hv, hp⟩
    · exact Or.inr ⟨v, w, hq, hvictim.trans hv⟩
  · set g : Bytes × Bool → Bytes × Bool := fun e => if e.1 = fname then (e.1, true) else e with hg
    have hview : (insque fname view).map some = ((q ++ p).map s.content).map (Option.map g) := by
      rw [insque, if_pos hmem, h.reading, List.map_map, List.map_map]
      rfl
    rw [hview, List.map_map, hcontent]
    refine List.map_congr_left fun b hb => ?_
    by_cases hba : b = a
    · subst hba
      simp [hcell, hg]
    · rw [Function.update_of_ne hba, Function.comp_apply]
      cases hcb : s.content b with
      | none => rfl
      | some e =>
          have hne : e.1 ≠ fname := fun heq =>
            hba (h.eq_of_named hb ha' (by simp [named, hcb, heq]) hna)
          simp [hg, hne]

theorem Represents.append (h : Represents s p q view) {p' q' : List A} {s' : ClockState A} {a : A}
    {fname : Bytes} (hfresh : a ∉ p ++ q) (hout : fname ∉ names view)
    (hring : RingState s' (p' ++ q')) (hhand : HandAt s' p' q')
    (hcells : q' ++ p' = q ++ p ++ [a])
    (hcontent : s'.content = Function.update s.content a (some (fname, true))) :
    Represents s' p' q' (insque fname view) := by
  refine ⟨hring, hhand, ?_, nodup_names_insque h.distinct⟩
  have hnew : a ∉ q ++ p := by simpa [or_comm] using hfresh
  rw [insque, if_neg hout, hcells, List.map_append, hcontent,
    map_content_update_of_notMem _ hnew, h.reading]
  simp

theorem insqueClock_spec (h : Represents s p q view) {fuel : Nat} (hfuel : view.length < fuel)
    {elem : A} (hfresh : s.heap elem = none) (junk : Inode A) {fname : Bytes}
    (hshort : fname.length < nameMax) :
    ∃ s' p' q', insqueClock fuel elem junk fname s = some s' ∧
      Represents s' p' q' (insque fname view) := by
  have hfind := h.ring.findelemClock_eq (h.length_eq.trans_le hfuel.le) fname
  have hlen : (insque fname view).length ≤ fuel := by
    rw [insque]
    split
    · rw [List.length_map]
      exact hfuel.le
    · rw [List.length_append]
      exact hfuel
  -- every branch ends with the loop that logs the queue
  have hlog : ∀ {s' : ClockState A} {p' q' : List A}, Represents s' p' q' (insque fname view) →
      ∃ log, logQueue fuel s' = some log := by
    intro s' p' q' h'
    refine Option.isSome_iff_exists.mp (h'.ring.logQueue_isSome ?_ (by rw [h'.length_eq]; exact hlen))
    intro hnil
    have := h'.length_eq
    rw [hnil, List.length_nil] at this
    have hnone := List.length_eq_zero_iff.mp this.symm
    have hmem : fname ∈ names (insque fname view) := mem_names_insque.mpr (Or.inl rfl)
    simp [hnone] at hmem
  have hnew : elem ∉ p ++ q := by
    intro hm
    have hlive := (h.ring.live elem).mpr hm
    simp [content, hfresh] at hlive
  cases hcell : (p ++ q).find? (named s fname) with
  | some a =>
      obtain ⟨s', hs', hrep⟩ :=
        h.mark (List.mem_of_find?_eq_some hcell) (List.find?_some hcell)
      obtain ⟨log, hl⟩ := hlog hrep
      refine ⟨s', p, q, ?_, hrep⟩
      simp [insqueClock, hfind, hcell, hs', hl]
  | none =>
      have hout := h.not_mem_names_of_find hcell
      rcases h.hand with ⟨hv, rfl⟩ | ⟨v, w, rfl, hv⟩
      · cases q with
        | nil =>
            -- the first cell of an empty queue is linked to itself
            set s₀ := s.malloc elem junk fname with hs₀
            have hcontent₀ := content_malloc s elem junk fname
            obtain ⟨s₁, hs₁, hkeep₁, hnext₁, hprev₁⟩ :=
              setNext_spec (s := s₀) (a := elem) (by rw [hcontent₀]; simp) elem
            obtain ⟨s₂, hs₂, hkeep₂, hprev₂, hnext₂⟩ :=
              setPrev_spec (s := s₁) (a := elem) (by rw [hkeep₁.content, hcontent₀]; simp) elem
            have hkeep := hkeep₁.trans hkeep₂
            have hrep : Represents { s₂ with clockHead := some elem, clockTail := some elem } [] [elem]
                (insque fname view) := by
              refine h.append hnew hout (RingState.insert (u := []) (w := []) h.ring (by simp)
                (e := (fname, true)) ?_ ?_ rfl rfl) (Or.inl ⟨?_, rfl⟩) rfl ?_
              · exact hkeep.content.trans hcontent₀
              · refine List.isChain_cons_cons.mpr ⟨⟨?_, ?_⟩, List.isChain_singleton _⟩
                · change s₂.links.next elem = _
                  rw [hnext₂, hnext₁, Function.update_self]
                · change s₂.links.prev elem = _
                  rw [hprev₂, Function.update_self]
              · exact hkeep.hand.trans hv
              · exact hkeep.content.trans hcontent₀
            obtain ⟨log, hl⟩ := hlog hrep
            have hhead : s₀.clockHead = none := h.ring.head
            refine ⟨_, [], [elem], ?_, hrep⟩
            simp only [insqueClock, hfind, hcell, ← hs₀, hhead, hs₁, hs₂, hl, Option.bind_eq_bind,
              Option.bind_some, if_neg hshort.not_ge]
        | cons b l =>
            obtain ⟨s', hs', hring, hcontent, hvictim⟩ :=
              insQ_spec_of_no_victim junk fname h.ring hnew hv
            have hhand : HandAt s' [] (b :: l ++ [elem]) := Or.inl ⟨hvictim, rfl⟩
            have hring' : RingState s' ([] ++ (b :: l ++ [elem])) := hring
            have hrep := h.append hnew hout hring' hhand (by simp) hcontent
            obtain ⟨log, hl⟩ := hlog hrep
            have hhead : (s.malloc elem junk fname).clockHead = some b := h.ring.head
            refine ⟨s', [], b :: l ++ [elem], ?_, hrep⟩
            simp only [insqueClock, hfind, hcell, hhead, hs', hl, Option.bind_eq_bind,
              Option.bind_some, if_neg hshort.not_ge]
      · obtain ⟨s', hs', hring, hcontent, hvictim⟩ :=
          insQ_spec_of_victim junk fname h.ring hnew hv
        have hhand : HandAt s' (p ++ [elem]) (v :: w) := Or.inr ⟨v, w, rfl, hvictim⟩
        have hrep := h.append hnew hout (by simpa using hring) hhand (by simp) hcontent
        obtain ⟨log, hl⟩ := hlog hrep
        obtain ⟨c, hc⟩ : ∃ c, (s.malloc elem junk fname).clockHead = some c := by
          have : (s.malloc elem junk fname).clockHead = (p ++ v :: w).head? := h.ring.head
          rw [this]
          exact Option.isSome_iff_exists.mp (by simp)
        refine ⟨s', p ++ [elem], v :: w, ?_, hrep⟩
        simp only [insqueClock, hfind, hcell, hc, hs', hl, Option.bind_eq_bind, Option.bind_some,
          if_neg hshort.not_ge]

omit [DecidableEq A] in
/-- The victim pointer set, as `remque_clock` sets it before it looks. -/
theorem Represents.pointed (h : Represents s p q view) (hne : view ≠ []) :
    ∃ a p' w, Represents (if s.victim = none then { s with victim := s.clockHead } else s)
        p' (a :: w) view ∧
      (if s.victim = none then { s with victim := s.clockHead } else s).victim = some a := by
  rcases h.hand with ⟨hv, rfl⟩ | ⟨v, w, rfl, hv⟩
  · cases q with
    | nil =>
        have := h.length_eq
        exact absurd (List.length_eq_zero_iff.mp this.symm) hne
    | cons a w =>
        have hhead : s.clockHead = some a := h.ring.head
        rw [if_pos hv]
        exact ⟨a, [], w, ⟨h.ring.moveHand _, Or.inr ⟨a, w, rfl, hhead⟩, h.reading, h.distinct⟩, hhead⟩
  · rw [if_neg (by simp [hv])]
    exact ⟨v, p, w, h, hv⟩

omit [DecidableEq A] in
theorem Represents.front {a : A} {w : List A} (h : Represents s p (a :: w) view) :
    ∃ e rest, view = e :: rest ∧ s.content a = some e ∧ named s e.1 a := by
  have hreading := h.reading
  cases view with
  | nil => simp at hreading
  | cons e rest =>
      obtain ⟨hcell, -⟩ := List.cons_eq_cons.mp hreading
      exact ⟨e, rest, rfl, hcell, by simp [named, hcell]⟩

/-- Clearing a bit and moving the hand on rotates the queue. -/
theorem Represents.rotate {a : A} {w : List A} {fname : Bytes} {rest : Queue Bytes} {i : Inode A}
    (h : Represents s p (a :: w) ((fname, true) :: rest)) (hi : s.heap a = some i) :
    ∃ s₁ p' q', s.setRefBit a false = some s₁ ∧
      Represents { s₁ with victim := some i.next } p' q' (rest ++ [(fname, false)]) ∧
      (∃ v w', q' = v :: w') := by
  have hreading := h.reading
  obtain ⟨hcell, hrest⟩ := List.cons_eq_cons.mp hreading
  obtain ⟨s₁, hs₁, hlinks, hcontent, hhead, htail, -⟩ := setRefBit_spec hcell false
  have hring := h.recolor (by simp) hlinks hcontent hhead htail
  have hdistinct : (names (rest ++ [(fname, false)])).Nodup := by
    have := h.distinct
    rw [names_append]
    exact (List.perm_append_singleton fname (names rest)).nodup_iff.mpr this
  have hnodup : (a :: (w ++ p)).Nodup := (List.perm_append_comm.nodup_iff).mp h.ring.nodup
  have hcells : (w ++ p ++ [a]).map s₁.content = (rest ++ [(fname, false)]).map some := by
    have hrest : (w ++ p).map s.content = rest.map some := hrest
    rw [List.map_append, hcontent,
      map_content_update_of_notMem _ (List.nodup_cons.mp hnodup).1, hrest]
    simp
  have hnext := h.ring.head?_next hi
  refine ⟨s₁, ?_⟩
  cases w with
  | nil =>
      -- the hand leaves the end of the ring and comes round to its head
      have hcells' : (p ++ [a] ++ []).map s₁.content = (rest ++ [(fname, false)]).map some := by
        simpa using hcells
      refine ⟨[], p ++ [a], hs₁, ⟨hring.moveHand _, Or.inr ?_, hcells', hdistinct⟩, ?_⟩
      · cases p with
        | nil => exact ⟨a, [], rfl, hnext.symm⟩
        | cons b l => exact ⟨b, l ++ [a], rfl, hnext.symm⟩
      · cases p with
        | nil => exact ⟨a, [], rfl⟩
        | cons b l => exact ⟨b, l ++ [a], rfl⟩
  | cons b l =>
      have hring' : RingState s₁ (p ++ [a] ++ b :: l) := by simpa using hring
      have hcells' : (b :: l ++ (p ++ [a])).map s₁.content = (rest ++ [(fname, false)]).map some := by
        simpa using hcells
      exact ⟨p ++ [a], b :: l, hs₁, ⟨hring'.moveHand _, Or.inr ⟨b, l, rfl, hnext.symm⟩, hcells',
        hdistinct⟩, b, l, rfl⟩

theorem rmelem_front {e : Bytes × Bool} {rest : Queue Bytes}
    (hdistinct : (names (e :: rest)).Nodup) : rmelem e.1 (e :: rest) = rest := by
  have hout : e.1 ∉ names rest := (List.nodup_cons.mp hdistinct).1
  rw [rmelem, List.filter_cons_of_neg (by simp)]
  refine List.filter_eq_self.mpr fun e' he' => ?_
  exact decide_eq_true fun heq => hout (heq ▸ List.mem_map_of_mem he')

/-- The search of the ring is the search of the queue, look for look. -/
theorem remqueLoop_spec {fuel : Nat} {a : A} {w : List A} {r : Bytes × Queue Bytes}
    (h : Represents s p (a :: w) view) (hv : s.victim = some a)
    (hevict : evict fuel view = some r) :
    ∃ s' p' q', remqueLoop fuel s = some (r.1, s') ∧ Represents s' p' q' r.2 := by
  induction fuel generalizing s p a w view with
  | zero => cases hevict
  | succ fuel ih =>
      obtain ⟨⟨fname, bit⟩, rest, rfl, hcell, hnamed⟩ := h.front
      obtain ⟨i, hi, hpair⟩ := Option.map_eq_some_iff.mp hcell
      obtain ⟨rfl, rfl⟩ := Prod.mk.inj hpair
      cases hbit : i.refBit with
      | false =>
          obtain ⟨s', p', q', hs', hrep⟩ := h.remove (by simp) hnamed
          rw [rmelem_front h.distinct] at hrep
          rw [hbit] at hevict
          cases hevict
          exact ⟨s', p', q', by simp [remqueLoop, hv, hi, hbit, hs'], hrep⟩
      | true =>
          rw [hbit] at h hevict
          obtain ⟨s₁, p', q', hs₁, hrep, v, w', rfl⟩ := h.rotate hi
          have hvictim : some i.next = some v := by
            rcases hrep.hand with ⟨hnone, -⟩ | ⟨v', w'', hcons, hv'⟩
            · cases hnone
            · obtain ⟨rfl, -⟩ := List.cons_eq_cons.mp hcons
              exact hv'
          obtain ⟨s', p'', q'', hs', hrep'⟩ := ih hrep hvictim hevict
          exact ⟨s', p'', q'', by simp [remqueLoop, hv, hi, hbit, hs₁, hs'], hrep'⟩

theorem remqueClock_spec (h : Represents s p q view) (hne : view ≠ []) {fuel : Nat}
    (hfuel : view.length < fuel) :
    ∃ fname rest s' p' q', remque view = some (fname, rest) ∧
      remqueClock fuel s = some (fname, s') ∧ Represents s' p' q' rest := by
  obtain ⟨⟨fname, rest⟩, hremque⟩ := Option.isSome_iff_exists.mp (remque_isSome hne)
  have hevict : evict fuel view = some (fname, rest) := evict_mono hremque hfuel
  obtain ⟨a, p₀, w, hrep, hv⟩ := h.pointed hne
  refine ⟨fname, rest, ?_⟩
  rw [remqueClock]
  generalize (if s.victim = none then { s with victim := s.clockHead } else s) = s₀ at hrep hv ⊢
  obtain ⟨e, tail, rfl, hcell, hnamed⟩ := hrep.front
  obtain ⟨i, hi, rfl⟩ := Option.map_eq_some_iff.mp hcell
  by_cases hself : a = i.next
  · -- the only cell goes, whatever its bit
    obtain ⟨rfl, rfl⟩ := hrep.ring.alone hi hself
    have htail : tail = [] := by
      have := hrep.length_eq
      simpa using this
    subst htail
    obtain ⟨rfl, rfl⟩ := Prod.mk.inj (evict_singleton hevict)
    obtain ⟨s', p', q', hs', hrep'⟩ := hrep.remove (by simp) hnamed
    rw [rmelem_front hrep.distinct] at hrep'
    exact ⟨s', p', q', hremque, by simp [hv, hi, ← hself, hs'], hrep'⟩
  · obtain ⟨s', p', q', hs', hrep'⟩ := remqueLoop_spec hrep hv hevict
    have hcells : p' ++ q' ≠ [] := by
      -- an emptied ring had a single cell
      intro hnil
      have hlen := hrep'.length_eq
      have hlen₀ := hrep.length_eq
      have hleft := length_of_remque hremque
      rw [hnil, List.length_nil] at hlen
      rw [hleft, ← hlen, List.length_append, List.length_cons] at hlen₀
      have hnext := hrep.ring.head?_next hi
      rw [List.length_eq_zero_iff.mp (show p₀.length = 0 by omega),
        List.length_eq_zero_iff.mp (show w.length = 0 by omega)] at hnext
      exact hself (Option.some.inj hnext)
    have hshort : (p' ++ q').length ≤ fuel := by
      rw [hrep'.length_eq]
      have hleft := length_of_remque hremque
      change rest.length ≤ fuel
      omega
    obtain ⟨log, hlog⟩ :=
      Option.isSome_iff_exists.mp (hrep'.ring.logQueue_isSome hcells hshort)
    exact ⟨s', p', q', hremque, by simp [hv, hi, hself, hs', hlog], hrep'⟩

end Operations

end FusionFS
