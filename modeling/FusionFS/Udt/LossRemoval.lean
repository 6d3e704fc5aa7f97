import FusionFS.Udt.RcvLossList

/-!
# Removing a loss from the list of a receiver

What the pointers are after a node is taken out, moved one slot on or split, and from it that a removal
takes exactly its number out of the set the list holds.
-/

namespace FusionFS.Udt

open IntervalSet IntervalSlots SerialNumber SlotChain

namespace RcvLossList.Represents

variable {l : RcvLossList} {c last : Nat} {runs p q : Runs} {r : Nat × Nat}

theorem next_eq (h : Represents l c (p ++ r :: q)) :
    l.next (slot l.size c r.1) = (slots l.size c q).head? :=
  h.holds.next_eq

theorem prior_eq (h : Represents l c (p ++ r :: q)) :
    l.prior (slot l.size c r.1) = (slots l.size c p).getLast? := by
  have hback := h.back (by simp)
  rw [slots_append, slots_cons, List.reverse_append, List.reverse_cons, List.append_assoc,
    List.singleton_append] at hback
  rw [← List.head?_reverse]
  exact hback.next_eq

theorem tail_eq_getLast? (h : Represents l c (p ++ r :: q)) :
    l.tail = (slots l.size c (p ++ r :: q)).getLast? := by
  rw [← List.head?_reverse]
  exact (h.back (by simp)).head

/-- The list starts with a node if nothing is before it. -/
theorem head_iff (h : Represents l c (p ++ r :: q)) :
    l.head = some (slot l.size c r.1) ↔ slots l.size c p = [] := by
  have hhead : l.head = _ := h.holds.head
  have hnodup := h.holds.nodup
  rw [slots_append, slots_cons] at hhead hnodup
  cases hp : slots l.size c p with
  | nil => simp [hhead, hp]
  | cons k rest =>
      rw [hp, List.cons_append, List.head?_cons] at hhead
      rw [hp, List.cons_append, List.nodup_cons] at hnodup
      rw [hhead, Option.some.injEq]
      refine iff_of_false ?_ (List.cons_ne_nil k rest)
      rintro rfl
      exact hnodup.1 (by simp)

theorem tail_iff (h : Represents l c (p ++ r :: q)) :
    l.tail = some (slot l.size c r.1) ↔ slots l.size c q = [] := by
  have htail := h.tail_eq_getLast?
  have hnodup := h.holds.nodup
  rw [slots_append, slots_cons] at htail hnodup
  cases hq : slots l.size c q using List.reverseRecOn with
  | nil => simp [htail, hq]
  | append_singleton rest k =>
      rw [hq, ← List.cons_append, ← List.append_assoc, List.getLast?_concat] at htail
      rw [hq] at hnodup
      rw [htail, Option.some.injEq]
      refine iff_of_false ?_ (by simp)
      rintro rfl
      have hcons := (List.nodup_append.mp hnodup).2.1
      exact (List.nodup_cons.mp hcons).1 (by simp)

/-- Only the links into a node and out of it change when it is taken out. -/
theorem unlinkNode_eq (h : Represents l c (p ++ r :: q)) :
    ∃ l', l.unlinkNode (slot l.size c r.1) = some l' ∧ l'.data1 = l.data1 ∧ l'.data2 = l.data2 ∧
      l'.length = l.length ∧ l'.size = l.size ∧
      links l'.head l'.next = Function.update (links l.head l.next) (slots l.size c p).getLast?
        (slots l.size c q).head? ∧
      (slots l.size c p ++ slots l.size c q ≠ [] → links l'.tail l'.prior =
        Function.update (links l.tail l.prior) (slots l.size c q).head? (slots l.size c p).getLast?) := by
  have hnext := h.next_eq
  have hprior := h.prior_eq
  have hnodup := h.holds.nodup
  rw [slots_append, slots_cons] at hnodup
  unfold unlinkNode
  by_cases hp : slots l.size c p = []
  · rw [if_pos (h.head_iff.mpr hp)]
    refine ⟨_, rfl, rfl, rfl, rfl, rfl, ?_, fun hne => ?_⟩
    · rw [hp, hnext, List.getLast?_nil, links_update_head l.head]
    · obtain ⟨k, rest, hq⟩ := List.exists_cons_of_ne_nil (show slots l.size c q ≠ [] by simpa [hp] using hne)
      simp only [hnext, hq, hp, List.head?_cons, List.getLast?_nil]
      rw [links_update_next]
  · rw [if_neg (mt h.head_iff.mp hp)]
    obtain ⟨front, before, hfront⟩ := (List.eq_nil_or_concat (slots l.size c p)).resolve_left hp
    have hbefore : slot l.size c r.1 ≠ before := by
      rintro rfl
      exact (List.nodup_append.mp hnodup).2.2 _ (by simp [hfront]) _ List.mem_cons_self rfl
    rw [hfront, List.concat_eq_append, List.getLast?_concat] at hprior
    simp only [hprior, Option.bind_eq_bind, Option.bind_some, Function.update_of_ne hbefore, hnext, hfront,
      List.concat_eq_append, List.getLast?_concat]
    cases hq : slots l.size c q with
    | nil =>
        refine ⟨_, rfl, rfl, rfl, rfl, rfl, ?_, fun _ => ?_⟩
        · rw [links_update_next]
        · simp only [List.head?_nil]
          rw [links_update_head l.tail]
    | cons k rest =>
        refine ⟨_, rfl, rfl, rfl, rfl, rfl, ?_, fun _ => ?_⟩
        · rw [links_update_next]
        · simp only [List.head?_cons]
          rw [links_update_next]

/-- The same when a node moves one slot on. -/
theorem shiftNode_eq (h : Represents l c (p ++ r :: q)) (seqno last : Nat)
    (hfresh : slot l.size c (r.1 + 1) ∉ slots l.size c p) :
    ∃ l', l.shiftNode (slot l.size c r.1) seqno last = some l' ∧
      l'.data1 = Function.update (Function.update l.data1 (slot l.size c (r.1 + 1))
        (some (incseq seqno))) (slot l.size c r.1) none ∧
      l'.data2 = Function.update (if 0 < seqcmp last (incseq seqno) then
        Function.update l.data2 (slot l.size c (r.1 + 1)) (some last) else l.data2)
        (slot l.size c r.1) none ∧
      l'.length = l.length ∧ l'.size = l.size ∧
      links l'.head l'.next = Function.update (Function.update (links l.head l.next)
        (some (slot l.size c (r.1 + 1))) (slots l.size c q).head?) (slots l.size c p).getLast?
        (some (slot l.size c (r.1 + 1))) ∧
      links l'.tail l'.prior = Function.update (Function.update (links l.tail l.prior)
        (some (slot l.size c (r.1 + 1))) (slots l.size c p).getLast?) (slots l.size c q).head?
        (some (slot l.size c (r.1 + 1))) := by
  have hnext := h.next_eq
  have hprior := h.prior_eq
  unfold shiftNode
  simp only [slot_succ, hnext, hprior]
  by_cases hp : slots l.size c p = []
  · rw [if_pos (h.head_iff.mpr hp), hp]
    by_cases hq : slots l.size c q = []
    · simp only [Option.bind_eq_bind, Option.bind_some, if_pos (h.tail_iff.mpr hq), hq]
      refine ⟨_, rfl, rfl, rfl, rfl, rfl, ?_, ?_⟩
      · rw [links_update_head l.head, links_update_next]
        rfl
      · rw [links_update_head l.tail, links_update_next]
        rfl
    · obtain ⟨after, rest, hrest⟩ := List.exists_cons_of_ne_nil hq
      simp only [Option.bind_eq_bind, Option.bind_some, if_neg (mt h.tail_iff.mp hq), hrest,
        Function.update_self]
      refine ⟨_, rfl, rfl, rfl, rfl, rfl, ?_, ?_⟩
      · rw [links_update_head l.head, links_update_next]
        rfl
      · rw [links_update_next, links_update_next]
        rfl
  · obtain ⟨front, before, hfront⟩ := (List.eq_nil_or_concat (slots l.size c p)).resolve_left hp
    rw [if_neg (mt h.head_iff.mp hp), hfront, List.concat_eq_append, List.getLast?_concat,
      Function.update_self]
    by_cases hq : slots l.size c q = []
    · simp only [Option.map_some, Option.bind_eq_bind, Option.bind_some, if_pos (h.tail_iff.mpr hq), hq]
      refine ⟨_, rfl, rfl, rfl, rfl, rfl, ?_, ?_⟩
      · rw [links_update_next, links_update_next]
      · rw [links_update_head l.tail, links_update_next]
        rfl
    · obtain ⟨after, rest, hrest⟩ := List.exists_cons_of_ne_nil hq
      have hbefore : slot l.size c (r.1 + 1) ≠ before := by
        rintro rfl
        exact hfresh (by simp [hfront])
      simp only [Option.map_some, Option.bind_eq_bind, Option.bind_some, if_neg (mt h.tail_iff.mp hq),
        hrest, Function.update_of_ne hbefore, Function.update_self]
      refine ⟨_, rfl, rfl, rfl, rfl, rfl, ?_, ?_⟩
      · rw [links_update_next, links_update_next]
      · rw [links_update_next, links_update_next]
        rfl

/-- The same when a node is split, and a new one is behind it. -/
theorem splitNode_eq (h : Represents l c (p ++ r :: q)) {s : Nat} (hs : seqOf s ≠ last)
    (hfresh : slot l.size c (s + 1) ≠ slot l.size c r.1) :
    ∃ l', l.splitNode (slot l.size c s) (slot l.size c r.1) (seqOf s) last = some l' ∧
      l'.data1 = Function.update l.data1 (slot l.size c (s + 1)) (some (seqOf (s + 1))) ∧
      l'.data2 = Function.update (if 0 < seqcmp last (seqOf (s + 1)) then
        Function.update l.data2 (slot l.size c (s + 1)) (some last) else l.data2)
        (slot l.size c r.1) (shortened l.data1 (slot l.size c r.1) (seqOf s)) ∧
      l'.length = l.length ∧ l'.size = l.size ∧
      links l'.head l'.next = Function.update (Function.update (links l.head l.next)
        (some (slot l.size c (s + 1))) (slots l.size c q).head?) (some (slot l.size c r.1))
        (some (slot l.size c (s + 1))) ∧
      links l'.tail l'.prior = Function.update (Function.update (links l.tail l.prior)
        (some (slot l.size c (s + 1))) (some (slot l.size c r.1))) (slots l.size c q).head?
        (some (slot l.size c (s + 1))) := by
  have hnext := h.next_eq
  have hshortened : shortened (Function.update l.data1 (slot l.size c (s + 1)) (some (seqOf (s + 1))))
      (slot l.size c r.1) (seqOf s) = shortened l.data1 (slot l.size c r.1) (seqOf s) := by
    rw [shortened, shortened, Function.update_of_ne hfresh.symm]
  unfold splitNode
  simp only [slot_succ, hnext, incseq_seqOf, hshortened, if_neg hs, Function.update_of_ne hfresh,
    Function.update_self]
  by_cases hq : slots l.size c q = []
  · rw [if_pos (h.tail_iff.mpr hq), hq]
    refine ⟨_, rfl, rfl, rfl, rfl, rfl, ?_, ?_⟩
    · rw [links_update_next, links_update_next]
    · rw [links_update_head l.tail, links_update_next]
      rfl
  · obtain ⟨after, rest, hrest⟩ := List.exists_cons_of_ne_nil hq
    rw [if_neg (mt h.tail_iff.mp hq), hrest]
    refine ⟨_, rfl, rfl, rfl, rfl, rfl, ?_, ?_⟩
    · rw [links_update_next, links_update_next]
    · rw [links_update_next, links_update_next]
      rfl

theorem ordered_of_removed {mid : Runs} {s : Nat} (h : Represents l c (p ++ ([r] ++ q)))
    (hrs : r.1 ≤ s) (hsr : s ≤ r.2) (hord : Ordered mid)
    (helems : elems mid = (Finset.Icc r.1 r.2).erase s) :
    Ordered (p ++ (mid ++ q)) ∧ (slots l.size c (p ++ (mid ++ q))).Nodup := by
  have hends : ∀ t ∈ mid, r.1 ≤ t.1 ∧ t.2 ≤ r.2 := by
    intro t ht
    have hfst : t.1 ∈ elems mid := hord.fst_mem ht
    have hsnd : t.2 ∈ elems mid := hord.snd_mem ht
    rw [helems, Finset.mem_erase, Finset.mem_Icc] at hfst hsnd
    exact ⟨hfst.2.1, hsnd.2.2⟩
  have hord' : Ordered (p ++ (mid ++ q)) := h.holds.ordered.replace hord
    (fun t ht => ⟨r, List.mem_cons_self, (hends t ht).1⟩)
    fun t ht => ⟨r, List.mem_cons_self, (hends t ht).2⟩
  refine ⟨hord', nodup_slots hord' ?_⟩
  rw [h.holds.ordered.elems_erase hrs hsr helems]
  intro x hx y hy
  exact h.holds.span x (Finset.mem_of_mem_erase hx) y (Finset.mem_of_mem_erase hy)

/-- A list that has less by one number in one of its nodes. -/
theorem of_removed {s : Nat} (mid : Runs) (l' : RcvLossList) (h : Represents l c (p ++ ([r] ++ q)))
    (hrs : r.1 ≤ s) (hsr : s ≤ r.2) (hord : Ordered mid)
    (helems : elems mid = (Finset.Icc r.1 r.2).erase s) (hsize : l'.size = l.size)
    (hlength : l'.length = l.length)
    (hlive : ∀ t ∈ mid, l'.data1 (slot l.size c t.1) = some (seqOf t.1) ∧
      l'.data2 (slot l.size c t.1) = lastOf seqOf t)
    (hcleared : (∀ t ∈ mid, t.1 ≠ r.1) → l'.data1 (slot l.size c r.1) = none ∧
      l'.data2 (slot l.size c r.1) = none)
    (hframe : ∀ k, k ≠ slot l.size c r.1 → (∀ t ∈ mid, k ≠ slot l.size c t.1) →
      l'.data1 k = l.data1 k ∧ l'.data2 k = l.data2 k)
    (hleads : Leads (links l'.head l'.next) (slots l.size c (p ++ (mid ++ q))))
    (hback : p ++ (mid ++ q) ≠ [] → Leads (links l'.tail l'.prior)
      (slots l.size c (p ++ (mid ++ q))).reverse) :
    Represents { l' with length := l'.length - 1 } c (p ++ (mid ++ q)) ∧
      elems (p ++ (mid ++ q)) = (elems (p ++ ([r] ++ q))).erase s := by
  have hmem : s ∈ elems (p ++ ([r] ++ q)) := mem_elems.mpr ⟨r, by simp, hrs, hsr⟩
  have hset := h.holds.ordered.elems_erase hrs hsr helems
  have hord' := (h.ordered_of_removed hrs hsr hord helems).1
  refine ⟨of_parts (hsize ▸ h.pos) (hsize ▸ h.small) ?_ (hsize ▸ hback) ?_, hset⟩
  · rw [hsize]
    apply h.holds.edit p [r] mid q hord' ?_ hlive ?_ ?_ hleads
    · rw [hset]
      intro x hx y hy
      exact h.holds.span x (Finset.mem_of_mem_erase hx) y (Finset.mem_of_mem_erase hy)
    · intro t ht hne
      obtain rfl := List.mem_singleton.mp ht
      exact hcleared hne
    · intro k hk hk'
      exact hframe k (hk r List.mem_cons_self) hk'
  · rw [hlength, h.length, h.holds.ordered.total_erase hord' hmem hset]

/-- A node with one loss goes. -/
theorem unlinkNode (h : Represents l c (p ++ ([r] ++ q))) (hr : r.1 = r.2) :
    ∃ l', l.unlinkNode (slot l.size c r.1) = some l' ∧ l'.size = l.size ∧
      Represents { l' with
        data1 := Function.update l'.data1 (slot l.size c r.1) none
        length := l'.length - 1 } c (p ++ q) ∧
      elems (p ++ q) = (elems (p ++ ([r] ++ q))).erase r.1 := by
  obtain ⟨l', hunlink, hdata1, hdata2, hlength, hsize, hnext, hprior⟩ := h.unlinkNode_eq
  have hnodup := h.holds.nodup
  rw [slots_append, slots_append, slots_cons, slots_nil] at hnodup
  refine ⟨l', hunlink, hsize, ?_⟩
  refine of_removed [] { l' with data1 := Function.update l'.data1 (slot l.size c r.1) none } h le_rfl
    hr.le Ordered.nil ?_ hsize hlength (fun t ht => absurd ht List.not_mem_nil) ?_ ?_ ?_ ?_
  · rw [elems_nil, ← hr, Finset.Icc_self, Finset.erase_singleton]
  · intro _
    refine ⟨Function.update_self .., ?_⟩
    have hlive := (h.holds.live r (by simp)).2
    rw [lastOf, if_neg (by omega)] at hlive
    exact hdata2 ▸ hlive
  · intro k hk _
    exact ⟨by rw [← hdata1]; exact Function.update_of_ne hk .., by rw [hdata2]⟩
  · have hleads := h.holds.leads
    rw [slots_append, slots_append, slots_cons, slots_nil] at hleads
    rw [List.nil_append, slots_append]
    exact hnext ▸ Leads.unlink _ _ _ hleads hnodup
  · intro hne
    have hback := h.back (by simp)
    rw [slots_append, slots_append, slots_cons, slots_nil, List.reverse_append, List.reverse_append,
      List.append_assoc] at hback
    have hrev := List.nodup_reverse.mpr hnodup
    rw [List.reverse_append, List.reverse_append, List.append_assoc] at hrev
    have key := Leads.unlink _ _ _ hback hrev
    rw [List.nil_append, slots_append, List.reverse_append]
    rw [List.getLast?_reverse, List.head?_reverse] at key
    exact (hprior (by simpa [slots] using hne)) ▸ key

/-- A node that starts with the loss starts behind it. -/
theorem shiftNode (h : Represents l c (p ++ ([r] ++ q))) (hr : r.1 < r.2) :
    ∃ l', l.shiftNode (slot l.size c r.1) (seqOf r.1) (seqOf r.2) = some l' ∧ l'.size = l.size ∧
      Represents { l' with length := l'.length - 1 } c (p ++ ([(r.1 + 1, r.2)] ++ q)) ∧
      elems (p ++ ([(r.1 + 1, r.2)] ++ q)) = (elems (p ++ ([r] ++ q))).erase r.1 := by
  have hmem : ∀ x, r.1 ≤ x → x ≤ r.2 → x ∈ elems (p ++ ([r] ++ q)) := fun x hx hx' =>
    mem_elems.mpr ⟨r, by simp, hx, hx'⟩
  have hnear : Near seqNoTh r.2 (r.1 + 1) := h.near (hmem _ hr.le le_rfl) (hmem _ (by omega) hr)
  have hmid : elems [(r.1 + 1, r.2)] = (Finset.Icc r.1 r.2).erase r.1 := by
    ext x
    simp only [elems_cons, elems_nil, Finset.union_empty, Finset.mem_Icc, Finset.mem_erase]
    omega
  have hnodup := h.holds.nodup
  have hnodup' := (h.ordered_of_removed le_rfl hr.le (Ordered.singleton (by omega)) hmid).2
  rw [slots_append, slots_append, slots_cons, slots_nil] at hnodup hnodup'
  have hne : slot l.size c (r.1 + 1) ≠ slot l.size c r.1 := by
    rw [Ne, slot_inj (h.holds.span _ (hmem _ le_rfl hr.le) _ (hmem _ (by omega) hr))
      (h.holds.span _ (hmem _ (by omega) hr) _ (hmem _ le_rfl hr.le))]
    omega
  have hfresh : slot l.size c (r.1 + 1) ∉ slots l.size c p := fun hk =>
    (List.nodup_append.mp hnodup').2.2 _ hk _ (by simp) rfl
  have hdead : l.data2 (slot l.size c (r.1 + 1)) = none := by
    refine (h.holds.dead _ fun hk => ?_).2
    simp only [slots_append, slots_cons, slots_nil, List.mem_append, List.mem_cons, List.not_mem_nil,
      or_false] at hk
    obtain hk | hk | hk := hk
    · exact hfresh hk
    · exact hne hk
    · exact (List.nodup_cons.mp (List.nodup_append.mp hnodup').2.1).1 hk
  obtain ⟨l', hshift, hdata1, hdata2, hlength, hsize, hnext, hprior⟩ :=
    shiftNode_eq (q := q) h (seqOf r.1) (seqOf r.2) hfresh
  simp only [incseq_seqOf, seqcmp_pos_iff hnear] at hdata1 hdata2
  refine ⟨l', hshift, hsize, of_removed _ l' h le_rfl hr.le (Ordered.singleton (by omega)) hmid hsize hlength
    ?_ ?_ ?_ ?_ ?_⟩
  · intro t ht
    obtain rfl := List.mem_singleton.mp ht
    rw [hdata1, hdata2, Function.update_of_ne hne, Function.update_self, Function.update_of_ne hne]
    refine ⟨rfl, ?_⟩
    by_cases hlt : r.1 + 1 < r.2
    · rw [if_pos hlt, Function.update_self, lastOf_of_lt hlt]
    · rw [if_neg hlt, hdead, lastOf, if_neg hlt]
  · intro _
    rw [hdata1, hdata2]
    exact ⟨Function.update_self .., Function.update_self ..⟩
  · intro k hk hk'
    have hki : k ≠ slot l.size c (r.1 + 1) := hk' _ List.mem_cons_self
    rw [hdata1, hdata2, Function.update_of_ne hk, Function.update_of_ne hki, Function.update_of_ne hk]
    refine ⟨rfl, ?_⟩
    split
    · exact Function.update_of_ne hki ..
    · rfl
  · have hleads := h.holds.leads
    rw [slots_append, slots_append, slots_cons, slots_nil] at hleads
    rw [slots_append, slots_append, slots_cons, slots_nil]
    exact hnext ▸ Leads.relink _ _ _ hleads hnodup hnodup'
  · intro _
    have hback := h.back (by simp)
    rw [slots_append, slots_append, slots_cons, slots_nil, List.reverse_append, List.reverse_append,
      List.append_assoc] at hback
    have hrev := List.nodup_reverse.mpr hnodup
    have hrev' := List.nodup_reverse.mpr hnodup'
    rw [List.reverse_append, List.reverse_append, List.append_assoc] at hrev hrev'
    have key := Leads.relink _ _ _ hback hrev hrev'
    rw [slots_append, slots_append, slots_cons, slots_nil, List.reverse_append, List.reverse_append,
      List.append_assoc]
    rw [List.getLast?_reverse, List.head?_reverse] at key
    exact hprior ▸ key

/-- What is left of a node before a loss behind its first. -/
theorem shortened_eq {s : Nat} (h : Represents l c (p ++ ([r] ++ q))) (hrs : r.1 < s) (hsr : s ≤ r.2) :
    shortened l.data1 (slot l.size c r.1) (seqOf s) = lastOf seqOf (r.1, s - 1) := by
  obtain ⟨s, rfl⟩ := Nat.exists_eq_add_of_lt hrs
  have hnear : Near seqNoTh (r.1 + 1) (r.1 + s + 1) :=
    h.near (mem_elems.mpr ⟨r, by simp, by omega, by omega⟩)
      (mem_elems.mpr ⟨r, by simp, by omega, by omega⟩)
  rw [shortened, (h.holds.live r (by simp)).1, Option.map_some, incseq_seqOf, decseq_seqOf, lastOf,
    Nat.add_sub_cancel]
  simp only [Option.some.injEq, seqOf_inj hnear]
  by_cases hlt : r.1 < r.1 + s
  · rw [if_neg (by omega), if_pos hlt]
  · rw [if_pos (by omega), if_neg hlt]

/-- The last loss of a node goes. -/
theorem shortenNode {s : Nat} (h : Represents l c (p ++ ([r] ++ q))) (hrs : r.1 < s) (hs : s = r.2) :
    ∃ l', l.splitNode (slot l.size c s) (slot l.size c r.1) (seqOf s) (seqOf r.2) = some l' ∧
      l'.size = l.size ∧
      Represents { l' with length := l'.length - 1 } c (p ++ ([(r.1, s - 1)] ++ q)) ∧
      elems (p ++ ([(r.1, s - 1)] ++ q)) = (elems (p ++ ([r] ++ q))).erase s := by
  have hmid : elems [(r.1, s - 1)] = (Finset.Icc r.1 r.2).erase s := by
    ext x
    simp only [elems_cons, elems_nil, Finset.union_empty, Finset.mem_Icc, Finset.mem_erase]
    omega
  have hleads := h.holds.leads
  have hback := h.back (by simp)
  rw [splitNode, if_pos (congrArg seqOf hs), h.shortened_eq hrs hs.le]
  refine ⟨_, rfl, rfl, of_removed _ _ h hrs.le hs.le (Ordered.singleton (by omega)) hmid rfl rfl
    ?_ ?_ ?_ ?_ ?_⟩
  · intro t ht
    obtain rfl := List.mem_singleton.mp ht
    exact ⟨(h.holds.live r (by simp)).1, Function.update_self ..⟩
  · intro hne
    exact absurd rfl (hne (r.1, s - 1) List.mem_cons_self)
  · intro k hk _
    exact ⟨rfl, Function.update_of_ne hk ..⟩
  · simpa using hleads
  · simpa using hback

/-- A loss in the middle of a node leaves two. -/
theorem splitNode {s : Nat} (h : Represents l c (p ++ ([r] ++ q))) (hrs : r.1 < s) (hsr : s < r.2) :
    ∃ l', l.splitNode (slot l.size c s) (slot l.size c r.1) (seqOf s) (seqOf r.2) = some l' ∧
      l'.size = l.size ∧
      Represents { l' with length := l'.length - 1 } c (p ++ ([(r.1, s - 1), (s + 1, r.2)] ++ q)) ∧
      elems (p ++ ([(r.1, s - 1), (s + 1, r.2)] ++ q)) = (elems (p ++ ([r] ++ q))).erase s := by
  have hmem : ∀ x, r.1 ≤ x → x ≤ r.2 → x ∈ elems (p ++ ([r] ++ q)) := fun x hx hx' =>
    mem_elems.mpr ⟨r, by simp, hx, hx'⟩
  have hend : seqOf s ≠ seqOf r.2 := by
    rw [Ne, seqOf_inj (h.near (hmem s hrs.le hsr.le) (hmem _ (by omega) le_rfl))]
    exact hsr.ne
  have hnear : Near seqNoTh r.2 (s + 1) := h.near (hmem _ (by omega) le_rfl) (hmem _ (by omega) hsr)
  have hmid : elems [(r.1, s - 1), (s + 1, r.2)] = (Finset.Icc r.1 r.2).erase s := by
    ext x
    simp only [elems_cons, elems_nil, Finset.union_empty, Finset.mem_union, Finset.mem_Icc,
      Finset.mem_erase]
    omega
  have hord : Ordered [(r.1, s - 1), (s + 1, r.2)] := by
    refine Ordered.cons_iff.mpr ⟨by simp; omega, fun t ht => ?_, Ordered.singleton hsr⟩
    obtain rfl := List.mem_singleton.mp ht
    simp only
    omega
  have hnodup := h.holds.nodup
  have hnodup' := (h.ordered_of_removed hrs.le hsr.le hord hmid).2
  rw [slots_append, slots_append, slots_cons, slots_nil] at hnodup
  rw [slots_append, slots_append, slots_cons, slots_cons, slots_nil] at hnodup'
  have hnodup_right := List.nodup_cons.mp (List.nodup_append.mp hnodup').2.1
  have hne : slot l.size c (s + 1) ≠ slot l.size c r.1 := fun heq => hnodup_right.1 (by simp [heq])
  have hdead : l.data2 (slot l.size c (s + 1)) = none := by
    refine (h.holds.dead _ fun hk => ?_).2
    simp only [slots_append, slots_cons, slots_nil, List.mem_append, List.mem_cons, List.not_mem_nil,
      or_false] at hk
    obtain hk | hk | hk := hk
    · exact (List.nodup_append.mp hnodup').2.2 _ hk _ (by simp) rfl
    · exact hne hk
    · exact (List.nodup_cons.mp hnodup_right.2).1 hk
  obtain ⟨l', hsplit, hdata1, hdata2, hlength, hsize, hnext, hprior⟩ :=
    splitNode_eq (q := q) h hend hne
  rw [h.shortened_eq hrs hsr.le] at hdata2
  simp only [seqcmp_pos_iff hnear] at hdata2
  refine ⟨l', hsplit, hsize, of_removed _ l' h hrs.le hsr.le hord hmid hsize hlength ?_ ?_ ?_ ?_ ?_⟩
  · intro t ht
    rw [hdata1, hdata2]
    obtain rfl | ht := List.mem_cons.mp ht
    · rw [Function.update_of_ne hne.symm, Function.update_self]
      exact ⟨(h.holds.live r (by simp)).1, rfl⟩
    · obtain rfl := List.mem_singleton.mp ht
      rw [Function.update_self, Function.update_of_ne hne]
      refine ⟨rfl, ?_⟩
      by_cases hlt : s + 1 < r.2
      · rw [if_pos hlt, Function.update_self, lastOf_of_lt hlt]
      · rw [if_neg hlt, hdead, lastOf, if_neg hlt]
  · intro hfst
    exact absurd rfl (hfst (r.1, s - 1) List.mem_cons_self)
  · intro k hk hk'
    have hks : k ≠ slot l.size c (s + 1) := hk' (s + 1, r.2) (by simp)
    rw [hdata1, hdata2, Function.update_of_ne hks, Function.update_of_ne hk]
    refine ⟨rfl, ?_⟩
    split
    · exact Function.update_of_ne hks ..
    · rfl
  · have hleads := h.holds.leads
    rw [slots_append, slots_append, slots_cons, slots_nil] at hleads
    rw [slots_append, slots_append, slots_cons, slots_cons, slots_nil]
    have key := Leads.relink (slots l.size c p ++ [slot l.size c r.1]) [] (slots l.size c q)
      (by simpa using hleads) (by simpa using hnodup) (by simpa using hnodup')
    rw [List.getLast?_concat] at key
    rw [hnext]
    simpa using key
  · intro _
    have hback := h.back (by simp)
    rw [slots_append, slots_append, slots_cons, slots_nil, List.reverse_append, List.reverse_append,
      List.append_assoc] at hback
    have hrev := List.nodup_reverse.mpr hnodup
    have hrev' := List.nodup_reverse.mpr hnodup'
    rw [List.reverse_append, List.reverse_append, List.append_assoc] at hrev hrev'
    rw [slots_append, slots_append, slots_cons, slots_cons, slots_nil, List.reverse_append,
      List.reverse_append, List.append_assoc]
    have key := Leads.relink (slots l.size c q).reverse []
      ([slot l.size c r.1] ++ (slots l.size c p).reverse) hback hrev hrev'
    rw [List.getLast?_reverse] at key
    rw [hprior]
    exact key

/-! ### Which node a loss is in -/

/-- The loop stops at the first node it meets on its way back. -/
theorem searchBack_finds (hpos : 0 < l.size) (t : Nat) (ht : (l.data1 (slot l.size c t)).isSome) :
    ∀ d fuel, d < fuel → ∃ u, t ≤ u ∧ u ≤ t + d ∧
      l.searchBack fuel (slot l.size c (t + d)) = some (slot l.size c u) ∧
      (l.data1 (slot l.size c u)).isSome ∧
      ∀ v, u < v → v ≤ t + d → l.data1 (slot l.size c v) = none := by
  intro d
  induction d with
  | zero =>
      intro fuel hfuel
      obtain ⟨fuel, rfl⟩ := Nat.exists_eq_add_of_lt hfuel
      refine ⟨t, le_rfl, le_rfl, ?_, ht, fun v hv hv' => by omega⟩
      exact if_neg (Option.isSome_iff_ne_none.mp ht)
  | succ d ih =>
      intro fuel hfuel
      obtain ⟨fuel, rfl⟩ : ∃ m, fuel = m + 1 := ⟨fuel - 1, by omega⟩
      rw [searchBack]
      by_cases hdata : l.data1 (slot l.size c (t + (d + 1))) = none
      · obtain ⟨u, htu, hud, hsearch, hu, hgap⟩ := ih fuel (by omega)
        rw [if_pos hdata, ← Nat.add_assoc, slot_pred hpos]
        refine ⟨u, htu, by omega, hsearch, hu, fun v hv hv' => ?_⟩
        rcases Nat.eq_or_lt_of_le hv' with rfl | hlt
        · exact hdata
        · exact hgap v hv (by omega)
      · rw [if_neg hdata]
        exact ⟨t + (d + 1), by omega, le_rfl, rfl, Option.isSome_iff_ne_none.mpr hdata,
          fun v hv hv' => by omega⟩

/-- From behind a loss, the loop finds a node that is the loss's own if it has one. -/
theorem searchBack_eq {s : Nat} (h : Represents l c (r :: runs)) (hrs : r.1 < s)
    (hstart : ∀ t ∈ r :: runs, t.1 ≠ s) :
    ∃ t ∈ r :: runs, l.searchBack l.size ((slot l.size c s + l.size - 1) % l.size) =
      some (slot l.size c t.1) ∧ (s < r.1 + l.size → t.1 < s) ∧
      (s ∈ elems (r :: runs) → s ≤ t.2) := by
  have hpos := h.pos
  have hord := h.holds.ordered
  have hr : r.1 ∈ elems (r :: runs) := hord.fst_mem List.mem_cons_self
  obtain ⟨m, rfl⟩ := Nat.exists_eq_add_of_lt hrs
  have hmod := Nat.mod_add_div m l.size
  have hslot : slot l.size c (r.1 + l.size * (m / l.size)) = slot l.size c r.1 := by
    rw [slot, slot, ← Nat.add_assoc, Nat.add_mul_mod_self_left]
  have hlive : (l.data1 (slot l.size c (r.1 + l.size * (m / l.size)))).isSome := by
    rw [hslot, (h.holds.live r List.mem_cons_self).1]
    rfl
  obtain ⟨u, hu, hu', hsearch, hsome, hgap⟩ :=
    searchBack_finds hpos _ hlive (m % l.size) l.size (Nat.mod_lt _ hpos)
  have hsum : r.1 + l.size * (m / l.size) + m % l.size = r.1 + m := by omega
  rw [hsum] at hu' hsearch hgap
  obtain ⟨t, ht, heq⟩ := h.holds.isSome_iff.mp hsome
  -- a loss in the window has the slots of the nodes before it behind its own
  have hwindow : r.1 + m + 1 < r.1 + l.size → t.1 = u := by
    intro hlt
    have hle := hord.le_of_mem (hord.fst_mem ht)
    have hspan := h.holds.span _ hr _ (hord.fst_mem ht)
    exact (slot_inj (by omega) (by omega)).mp heq
  refine ⟨t, ht, ?_, fun hlt => ?_, fun hmem => ?_⟩
  · rw [slot_pred hpos, hsearch, heq]
  · have := hwindow hlt
    omega
  · have htu := hwindow (h.holds.span _ hr _ hmem)
    obtain ⟨t', ht', hle, hle'⟩ := mem_elems.mp hmem
    have hne := hstart t' ht'
    have htt : t'.1 ≤ t.1 := by
      by_contra hlt
      have hnone := hgap t'.1 (by omega) (by omega)
      rw [(h.holds.live t' ht').1] at hnone
      cases hnone
    obtain rfl := hord.unique ht ht' le_rfl (hord.le t ht) htt (by omega)
    exact hle'

/-- **Removal.** Exactly the one number goes, if it is there. -/
theorem remove (h : Represents l c runs) {s : Nat} (hnear : ∀ x ∈ elems runs, Near seqNoTh x s) :
    ∃ l' runs', l.remove (seqOf s) = some (l', decide (s ∈ elems runs)) ∧ Represents l' c runs' ∧
      elems runs' = (elems runs).erase s ∧ l'.size = l.size := by
  have hkept : s ∉ elems runs → ∃ l' runs', some (l, false) = some (l', decide (s ∈ elems runs)) ∧
      Represents l' c runs' ∧ elems runs' = (elems runs).erase s ∧ l'.size = l.size := fun hs =>
    ⟨l, runs, by rw [decide_eq_false hs], h, (Finset.erase_eq_of_notMem hs).symm, rfl⟩
  unfold RcvLossList.remove
  by_cases hempty : l.length = 0
  · rw [if_pos hempty]
    apply hkept
    rw [h.length_eq_zero_iff.mp hempty]
    exact Finset.notMem_empty s
  · obtain ⟨f, rest, rfl⟩ := List.exists_cons_of_ne_nil (mt h.length_eq_zero_iff.mpr hempty)
    obtain ⟨hhead, hfirst⟩ := h.head_eq
    have hord := h.holds.ordered
    have hfnear := hnear _ (hord.fst_mem List.mem_cons_self)
    rw [if_neg hempty]
    simp only [hhead, hfirst, Option.bind_eq_bind, Option.bind_some, seqoff_eq hfnear]
    by_cases hbefore : s < f.1
    · rw [if_pos (by omega)]
      apply hkept
      intro hmem
      have := hord.le_of_mem hmem
      omega
    · rw [if_neg (by omega), ← seqoff_eq hfnear, index_seqoff (by omega) hfnear.2, Option.bind_some]
      by_cases hstart : ∃ r ∈ f :: rest, r.1 = s
      · -- the loss starts a node
        obtain ⟨r, hr, rfl⟩ := hstart
        obtain ⟨p, q, hsplit⟩ := List.append_of_mem hr
        obtain ⟨hdata1, hdata2⟩ := h.holds.live r hr
        have hmem : r.1 ∈ elems (f :: rest) := hord.fst_mem hr
        rw [if_pos hdata1, hdata2, decide_eq_true hmem]
        rw [hsplit] at h ⊢
        rcases Nat.eq_or_lt_of_le (hord.le r hr) with hr12 | hr12
        · obtain ⟨l', hunlink, hsize, hrep, helems⟩ := unlinkNode (q := q) h hr12
          rw [lastOf, if_neg (by omega)]
          simp only [hunlink, Option.map_some, Option.bind_some]
          exact ⟨_, _, rfl, hrep, helems, hsize⟩
        · obtain ⟨l', hshift, hsize, hrep, helems⟩ := shiftNode (q := q) h hr12
          rw [lastOf_of_lt hr12]
          simp only [hshift, Option.bind_some]
          exact ⟨_, _, rfl, hrep, helems, hsize⟩
      · have hfs : f.1 < s := by
          have hne : f.1 ≠ s := fun heq => hstart ⟨f, List.mem_cons_self, heq⟩
          omega
        have hdata : l.data1 (slot l.size c s) ≠ some (seqOf s) := by
          rw [Ne, h.holds.start_iff fun r hr heq =>
            (seqOf_inj (hnear _ (hord.fst_mem hr))).mp heq]
          exact hstart
        obtain ⟨t, ht, hsearch, hwindow, hends⟩ := h.searchBack_eq hfs fun t ht heq =>
          hstart ⟨t, ht, heq⟩
        obtain ⟨hdata1, hdata2⟩ := h.holds.live t ht
        have hspan : ∀ x ∈ elems (f :: rest), x < f.1 + l.size :=
          h.holds.span _ (hord.fst_mem List.mem_cons_self)
        have hcmp := seqcmp_pos_iff (hnear _ (hord.snd_mem ht)).symm
        simp only [if_neg hdata, hsearch, Option.bind_some, hdata2]
        rcases Nat.eq_or_lt_of_le (hord.le t ht) with ht12 | ht12
        · rw [lastOf, if_neg (by omega)]
          apply hkept
          intro hmem
          have := hwindow (hspan s hmem)
          have := hends hmem
          omega
        · rw [lastOf_of_lt ht12]
          by_cases hbehind : t.2 < s
          · simp only [if_pos (hcmp.mpr hbehind)]
            apply hkept
            intro hmem
            have := hends hmem
            omega
          · have hts : t.1 < s := by
              apply hwindow
              have := hspan _ (hord.snd_mem ht)
              omega
            have hmem : s ∈ elems (f :: rest) := mem_elems.mpr ⟨t, ht, hts.le, by omega⟩
            obtain ⟨p, q, hsplit⟩ := List.append_of_mem ht
            simp only [if_neg (mt hcmp.mp hbehind), decide_eq_true hmem]
            rw [hsplit] at h ⊢
            rcases Nat.eq_or_lt_of_le (show s ≤ t.2 by omega) with hend | hend
            · obtain ⟨l', hshorten, hsize, hrep, helems⟩ := shortenNode (q := q) h hts hend
              rw [hshorten]
              exact ⟨_, _, rfl, hrep, helems, hsize⟩
            · obtain ⟨l', hsplit', hsize, hrep, helems⟩ := splitNode (q := q) h hts hend
              rw [hsplit']
              exact ⟨_, _, rfl, hrep, helems, hsize⟩

end RcvLossList.Represents

end FusionFS.Udt
