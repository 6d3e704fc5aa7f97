import FusionFS.Udt.LossInsertion

/-!
# Taking losses from the list of a sender

Numbers go from the front: the first one when it is sent again, or all up to an acknowledged one.
-/

namespace FusionFS.Udt

open IntervalSet IntervalSlots SerialNumber SlotChain

namespace SndLossList

variable {l : SndLossList} {c i j : Nat} {runs p q : Runs} {r : Nat × Nat}

namespace Represents

/-- A slot behind the start of a node that is no start itself is not in use. -/
theorem fresh_slot {s : Nat} (h : Represents l c (p ++ r :: q)) (hrs : r.1 ≤ s) (hsr : s < r.2) :
    slot l.size c (s + 1) ∉ slots l.size c (p ++ r :: q) := by
  have hord := h.holds.ordered
  have hr : r ∈ p ++ r :: q := by simp
  intro hk
  obtain ⟨t, ht, heq⟩ := mem_slots.mp hk
  have hs : s + 1 ∈ elems (p ++ r :: q) := mem_elems.mpr ⟨r, hr, by omega, hsr⟩
  have ht1 := hord.fst_mem ht
  have hts : t.1 = s + 1 := (slot_inj (h.holds.span _ hs _ ht1) (h.holds.span _ ht1 _ hs)).mp heq
  obtain rfl := hord.unique ht hr hts.le (hts ▸ hord.le t ht) (by omega) hsr
  omega

/-- **The first number.** -/
theorem popHead (h : Represents l c (r :: q)) :
    ∃ runs', Represents (l.popHead (slot l.size c r.1) (seqOf r.1)) c runs' ∧
      elems runs' = (elems (r :: q)).erase r.1 ∧
      (l.popHead (slot l.size c r.1) (seqOf r.1)).size = l.size := by
  have hord := h.holds.ordered
  obtain ⟨hle, hrest, hq⟩ := Ordered.cons_iff.mp hord
  have hnodup := h.holds.nodup
  have hleads := h.holds.leads
  have hlive := h.holds.live r List.mem_cons_self
  have hnext : l.next (slot l.size c r.1) = (slots l.size c q).head? := next_eq (p := []) h
  have hmem : r.1 ∈ elems (r :: q) := hord.fst_mem List.mem_cons_self
  have hlast : ∀ k, (if l.lastInsertPos = some (slot l.size c r.1) then none else l.lastInsertPos) = some k →
      ∃ t ∈ q, slot l.size c t.1 = k := by
    intro k hk
    split at hk
    · cases hk
    · rename_i hne
      obtain ⟨t, ht, hslot⟩ := h.lastInsert k hk
      rcases List.mem_cons.mp ht with rfl | ht
      · exact absurd (hslot ▸ hk) hne
      · exact ⟨t, ht, hslot⟩
  unfold SndLossList.popHead
  rcases Nat.eq_or_lt_of_le hle with hone | hmany
  · -- the node goes
    have helems : elems ([] ++ ([] ++ q)) = (elems ([] ++ ([r] ++ q))).erase r.1 :=
      Ordered.elems_erase hord le_rfl hle (by
        rw [elems_nil, ← hone, Finset.Icc_self, Finset.erase_singleton])
    simp only [hlive.2, lastOf, if_neg (show ¬ r.1 < r.2 by omega)]
    refine ⟨q, ⟨h.pos, h.small, ?_, ?_, hlast⟩, helems, trivial⟩
    · refine Holds.edit [] [r] [] q h.holds hq ?_ (by simp) ?_ ?_ ?_
      · rw [helems]
        intro x hx y hy
        exact h.holds.span x (Finset.mem_of_mem_erase hx) y (Finset.mem_of_mem_erase hy)
      · intro t ht _
        obtain rfl := List.mem_singleton.mp ht
        refine ⟨Function.update_self .., ?_⟩
        rw [hlive.2, lastOf, if_neg (by omega)]
      · intro k hk _
        exact ⟨Function.update_of_ne (hk r List.mem_cons_self) .., rfl⟩
      · have key := Leads.unlink [] [slot l.size c r.1] _ hleads hnodup
        rw [links_update_head l.head, hnext]
        exact key
    · rw [h.length, hord.total_erase hq hmem helems]
  · -- the node moves
    have hfresh := fresh_slot (p := []) h le_rfl hmany
    rw [List.nil_append, slots_cons, List.mem_cons, not_or] at hfresh
    obtain ⟨hne, hfreshq⟩ := hfresh
    have hdead : l.data2 (slot l.size c (r.1 + 1)) = none := (h.holds.dead _ (by
      rw [slots_cons, List.mem_cons, not_or]
      exact ⟨hne, hfreshq⟩)).2
    have hmid : elems [(r.1 + 1, r.2)] = (Finset.Icc r.1 r.2).erase r.1 := by
      ext x
      simp only [elems_cons, elems_nil, Finset.union_empty, Finset.mem_Icc, Finset.mem_erase]
      omega
    have helems : elems ([] ++ ([(r.1 + 1, r.2)] ++ q)) = (elems ([] ++ ([r] ++ q))).erase r.1 :=
      Ordered.elems_erase hord le_rfl hle hmid
    have hord' : Ordered ((r.1 + 1, r.2) :: q) := Ordered.cons_iff.mpr ⟨hmany, hrest, hq⟩
    have hnear : Near seqNoTh r.2 (r.1 + 1) := h.near (hord.snd_mem List.mem_cons_self)
      (mem_elems.mpr ⟨r, List.mem_cons_self, by omega, hmany⟩)
    have hcmp := seqcmp_pos_iff hnear
    simp only [hlive.2, lastOf_of_lt hmany, slot_succ, incseq_seqOf]
    refine ⟨(r.1 + 1, r.2) :: q, ⟨h.pos, h.small, ?_, ?_, fun k hk => ?_⟩, helems, trivial⟩
    · refine Holds.edit [] [r] [(r.1 + 1, r.2)] q h.holds hord' ?_ ?_ ?_ ?_ ?_
      · rw [helems]
        intro x hx y hy
        exact h.holds.span x (Finset.mem_of_mem_erase hx) y (Finset.mem_of_mem_erase hy)
      · intro t ht
        obtain rfl := List.mem_singleton.mp ht
        refine ⟨(Function.update_of_ne hne ..).trans (Function.update_self ..),
          (Function.update_of_ne hne ..).trans ?_⟩
        by_cases hlt : r.1 + 1 < r.2
        · rw [if_pos (hcmp.mpr hlt), Function.update_self, lastOf_of_lt hlt]
        · rw [if_neg (mt hcmp.mp hlt), hdead, lastOf, if_neg hlt]
      · intro t ht _
        obtain rfl := List.mem_singleton.mp ht
        exact ⟨Function.update_self .., Function.update_self ..⟩
      · intro k hk hk'
        have hkr := hk r List.mem_cons_self
        have hki : k ≠ slot l.size c (r.1 + 1) := hk' (r.1 + 1, r.2) List.mem_cons_self
        refine ⟨(Function.update_of_ne hkr ..).trans (Function.update_of_ne hki ..),
          (Function.update_of_ne hkr ..).trans ?_⟩
        split
        · exact Function.update_of_ne hki ..
        · rfl
      · have hnodup' : (slot l.size c (r.1 + 1) :: slots l.size c q).Nodup :=
          List.nodup_cons.mpr ⟨hfreshq, (List.nodup_cons.mp hnodup).2⟩
        have key := Leads.relink [] [slot l.size c r.1] _ hleads hnodup hnodup'
        rw [links_update_head l.head, links_update_next, hnext]
        exact key
    · rw [h.length, hord.total_erase hord' hmem helems]
    · obtain ⟨t, ht, hslot⟩ := hlast k hk
      exact ⟨t, List.mem_cons_of_mem _ ht, hslot⟩

/-- `getLostSeq` is that of a number which is the least. -/
theorem getLostSeq (h : Represents l c runs) :
    (runs = [] ∧ l.getLostSeq = some (l, none)) ∨
      ∃ x l' runs', x ∈ elems runs ∧ (∀ y ∈ elems runs, x ≤ y) ∧
        l.getLostSeq = some (l', some (seqOf x)) ∧ Represents l' c runs' ∧
        elems runs' = (elems runs).erase x ∧ l'.size = l.size := by
  unfold SndLossList.getLostSeq
  cases runs with
  | nil =>
      rw [if_pos (h.length_eq_zero_iff.mpr rfl)]
      exact .inl ⟨rfl, rfl⟩
  | cons r q =>
      obtain ⟨hhead, hfirst⟩ := h.head_eq
      obtain ⟨runs', hrep, helems, hsize⟩ := h.popHead
      have hne := mt h.length_eq_zero_iff.mp (List.cons_ne_nil r q)
      simp only [if_neg hne, hhead, hfirst, Option.bind_eq_bind, Option.bind_some]
      exact .inr ⟨r.1, _, runs', h.holds.ordered.fst_mem List.mem_cons_self,
        fun y hy => h.holds.ordered.le_of_mem hy, rfl, hrep, helems, hsize⟩

end Represents

/-! ### Up to a number -/

/-- The loop removes the nodes before the head. -/
theorem removeNodes_eq (q : Runs) (p : Runs) : ∀ {l : SndLossList} (fuel : Nat),
    Layout l.size c seqOf l.data1 l.data2 (links (slots l.size c (p ++ q)).head? l.next) (p ++ q) →
    l.head = (slots l.size c q).head? → (∀ r ∈ p, r.1 ≤ r.2 ∧ r.2 < r.1 + seqNoTh) → p.length < fuel →
    ∃ l', removeNodes fuel l (slots l.size c (p ++ q)).head? = some l' ∧ l'.Lays c q ∧
      l'.length = l.length - total p ∧ l'.size = l.size ∧
      ∀ k, l'.lastInsertPos = some k → l.lastInsertPos = some k ∧ ∀ r ∈ p, slot l.size c r.1 ≠ k := by
  induction p with
  | nil =>
      intro l fuel h hhead _ _
      refine ⟨l, ?_, ?_, by simp, rfl, fun k hk => ⟨hk, by simp⟩⟩
      · cases fuel <;> rw [removeNodes, List.nil_append, if_pos hhead.symm]
      · rw [List.nil_append, ← hhead] at h
        exact h
  | cons r p ih =>
      intro l fuel h hhead hlens hfuel
      obtain ⟨fuel, rfl⟩ : ∃ m, fuel = m + 1 := ⟨fuel - 1, by simp at hfuel; omega⟩
      obtain ⟨hle, hlt⟩ := hlens r List.mem_cons_self
      have hlive := h.live r (by simp)
      have hnodup := h.nodup
      have hnext : l.next (slot l.size c r.1) = (slots l.size c (p ++ q)).head? :=
        Layout.next_eq (p := []) h
      have hgo : some (slot l.size c r.1) ≠ l.head := by
        rw [hhead]
        intro heq
        rw [List.cons_append, slots_cons, List.nodup_cons, slots_append] at hnodup
        exact hnodup.1 (List.mem_append_right _ (List.mem_of_mem_head? heq.symm))
      have hlength : l.lengthWithout (slot l.size c r.1) (seqOf r.1) =
          l.length - ((r.2 : Int) - r.1 + 1) := by
        rw [lengthWithout, hlive.2]
        rcases Nat.eq_or_lt_of_le hle with heq | hlast
        · rw [lastOf, if_neg (by omega)]
          show l.length - 1 = _
          omega
        · rw [lastOf_of_lt hlast]
          show l.length - seqlen (seqOf r.1) (seqOf r.2) = _
          rw [seqlen_eq hle hlt]
      rw [removeNodes, List.cons_append, slots_cons, List.head?_cons, if_neg hgo]
      simp only [hlive.1, hnext, Option.bind_eq_bind, Option.bind_some]
      have hrest : Layout l.size c seqOf (Function.update l.data1 (slot l.size c r.1) none)
          (Function.update l.data2 (slot l.size c r.1) none)
          (links (slots l.size c (p ++ q)).head? l.next) ([] ++ ([] ++ (p ++ q))) := by
        refine Layout.edit [] [r] [] (p ++ q) h (List.nodup_cons.mp hnodup).2 (by simp) ?_ ?_ ?_
        · intro t ht _
          obtain rfl := List.mem_singleton.mp ht
          exact ⟨Function.update_self .., Function.update_self ..⟩
        · intro k hk _
          have hkr := hk r List.mem_cons_self
          exact ⟨Function.update_of_ne hkr .., Function.update_of_ne hkr ..⟩
        · have key := Leads.unlink [] [slot l.size c r.1] _ h.leads hnodup
          rw [List.cons_append, slots_cons, List.head?_cons] at key
          rw [links_update_head (some (slot l.size c r.1))]
          exact key
      obtain ⟨l', hrun, hlays, hlen, hsize, hlast⟩ := ih (l := { l with
          data1 := Function.update l.data1 (slot l.size c r.1) none
          data2 := Function.update l.data2 (slot l.size c r.1) none
          length := l.lengthWithout (slot l.size c r.1) (seqOf r.1)
          lastInsertPos := if l.lastInsertPos = some (slot l.size c r.1) then none else l.lastInsertPos })
        fuel hrest hhead
        (fun t ht => hlens t (List.mem_cons_of_mem _ ht)) (by simpa using hfuel)
      refine ⟨l', hrun, hlays, ?_, hsize, fun k hk => ?_⟩
      · rw [hlen, total_cons]
        show l.lengthWithout (slot l.size c r.1) (seqOf r.1) - total p = _
        rw [hlength]
        omega
      · obtain ⟨hkept, hout⟩ := hlast k hk
        change (if l.lastInsertPos = some (slot l.size c r.1) then none else l.lastInsertPos) = some k at hkept
        split at hkept
        · cases hkept
        · rename_i hne
          refine ⟨hkept, fun t ht => ?_⟩
          rcases List.mem_cons.mp ht with rfl | ht
          · rintro rfl
            exact hne hkept
          · exact hout t ht

namespace Represents

/-- A node cut behind a number. -/
theorem cutNode {s : Nat} (h : Represents l c (p ++ r :: q)) (hrs : r.1 ≤ s) (hsr : s < r.2) :
    Layout l.size c seqOf
      (l.cutNode (slot l.size c r.1) (slot l.size c s) (seqOf s) (seqOf r.2) (lastOf seqOf (r.1, s))).data1
      (l.cutNode (slot l.size c r.1) (slot l.size c s) (seqOf s) (seqOf r.2) (lastOf seqOf (r.1, s))).data2
      (links l.head
        (l.cutNode (slot l.size c r.1) (slot l.size c s) (seqOf s) (seqOf r.2) (lastOf seqOf (r.1, s))).next)
      (p ++ [(r.1, s)] ++ (s + 1, r.2) :: q) := by
  have hr : r ∈ p ++ r :: q := by simp
  have hfresh := h.fresh_slot hrs hsr
  have hdead := (h.holds.dead _ hfresh).2
  have hnodup := h.holds.nodup
  have hleads := h.holds.leads
  have hnext := h.next_eq
  have hcmp := seqcmp_pos_iff (h.near (h.holds.ordered.snd_mem hr)
    (mem_elems.mpr ⟨r, hr, by omega, hsr⟩) : Near seqNoTh r.2 (s + 1))
  rw [slots_append, slots_cons] at hfresh hnodup hleads
  simp only [List.mem_append, List.mem_cons, not_or] at hfresh
  obtain ⟨hfreshp, hne, hfreshq⟩ := hfresh
  have hnodup' : (slots l.size c p ++ ([slot l.size c r.1, slot l.size c (s + 1)] ++ slots l.size c q)).Nodup := by
    rw [List.nodup_append] at hnodup ⊢
    obtain ⟨hp, hrq, hpr⟩ := hnodup
    rw [List.nodup_cons] at hrq
    refine ⟨hp, ?_, fun k hk m hm => ?_⟩
    · simp only [List.cons_append, List.nil_append, List.nodup_cons, List.mem_cons, not_or]
      exact ⟨⟨(Ne.symm hne), hrq.1⟩, hfreshq, hrq.2⟩
    · simp only [List.cons_append, List.nil_append, List.mem_cons] at hm
      obtain rfl | rfl | hm := hm
      · exact hpr k hk _ List.mem_cons_self
      · exact ne_of_mem_of_not_mem hk hfreshp
      · exact hpr k hk m (List.mem_cons_of_mem _ hm)
  unfold SndLossList.cutNode
  simp only [slot_succ, incseq_seqOf]
  have key : Layout l.size c seqOf
      (Function.update l.data1 (slot l.size c (s + 1)) (some (seqOf (s + 1))))
      (Function.update (if 0 < seqcmp (seqOf r.2) (seqOf (s + 1)) then
        Function.update l.data2 (slot l.size c (s + 1)) (some (seqOf r.2)) else l.data2)
        (slot l.size c r.1) (lastOf seqOf (r.1, s)))
      (links l.head (Function.update (Function.update l.next (slot l.size c (s + 1))
        (l.next (slot l.size c r.1))) (slot l.size c r.1) (some (slot l.size c (s + 1)))))
      (p ++ ([(r.1, s), (s + 1, r.2)] ++ q)) := by
    refine Layout.edit p [r] [(r.1, s), (s + 1, r.2)] q h.holds.toLayout ?_ ?_ ?_ ?_ ?_
    · rw [slots_append, slots_append]
      exact hnodup'
    · intro t ht
      rcases List.mem_cons.mp ht with rfl | ht
      · exact ⟨(Function.update_of_ne (Ne.symm hne) ..).trans (h.holds.live r hr).1, Function.update_self ..⟩
      · obtain rfl := List.mem_singleton.mp ht
        refine ⟨Function.update_self .., (Function.update_of_ne hne ..).trans ?_⟩
        by_cases hlt : s + 1 < r.2
        · rw [if_pos (hcmp.mpr hlt), Function.update_self, lastOf_of_lt hlt]
        · rw [if_neg (mt hcmp.mp hlt), hdead, lastOf, if_neg hlt]
    · intro t ht hout
      obtain rfl := List.mem_singleton.mp ht
      exact absurd rfl (hout (t.1, s) List.mem_cons_self)
    · intro k hk hk'
      have hkr := hk r List.mem_cons_self
      have hks : k ≠ slot l.size c (s + 1) := hk' (s + 1, r.2) (by simp)
      refine ⟨Function.update_of_ne hks .., (Function.update_of_ne hkr ..).trans ?_⟩
      split
      · exact Function.update_of_ne hks ..
      · rfl
    · have key := Leads.relink (slots l.size c p ++ [slot l.size c r.1]) [] (slots l.size c q)
        (by simpa using hleads) (by simpa using hnodup) (by simpa using hnodup')
      rw [List.getLast?_concat, ← hnext, ← links_update_next, ← links_update_next] at key
      rw [slots_append, slots_append]
      simpa using key
  simpa using key

/-- The list once the nodes before the new head are gone. -/
theorem removed {s : Nat} (l₁ : SndLossList) (h : Represents l c runs) (hsize : l₁.size = l.size)
    (hlayout : Layout l.size c seqOf l₁.data1 l₁.data2 (links l.head l₁.next) (p ++ q))
    (hhead : l₁.head = (slots l.size c q).head?) (hord : Ordered (p ++ q))
    (helems : elems (p ++ q) = elems runs) (hlength : l₁.length = l.length)
    (hp : ∀ t ∈ p, t.2 ≤ s) (hq : ∀ t ∈ q, s < t.1) (hlast : l₁.lastInsertPos = l.lastInsertPos)
    (hstarts : ∀ t ∈ runs, ∃ t' ∈ p ++ q, t'.1 = t.1) :
    ∃ l', removeNodes (l.size + 1) l₁ l.head = some l' ∧ Represents l' c q ∧
      elems q = (elems runs).filter (s < ·) ∧ l'.size = l.size := by
  obtain ⟨hordp, hordq, hpq⟩ := Ordered.append_iff.mp hord
  have hfirst : l.head = (slots l.size c (p ++ q)).head? := hlayout.head
  have hfuel : p.length < l.size + 1 := by
    have := hlayout.length_le h.pos
    rw [List.length_append] at this
    omega
  have hlens : ∀ t ∈ p, t.1 ≤ t.2 ∧ t.2 < t.1 + seqNoTh := by
    intro t ht
    have ht1 := hord.fst_mem (List.mem_append_left q ht)
    have ht2 := hord.snd_mem (List.mem_append_left q ht)
    rw [helems] at ht1 ht2
    have := h.holds.span _ ht1 _ ht2
    have := h.small
    exact ⟨hordp.le t ht, by omega⟩
  rw [hfirst, ← hsize] at hlayout
  rw [hfirst, ← hsize]
  obtain ⟨l', hrun, hlays, hlen, hsize', hkept⟩ :=
    removeNodes_eq q p (l₁.size + 1) hlayout (hsize.symm ▸ hhead) hlens (hsize.symm ▸ hfuel)
  have hset : elems q = (elems runs).filter (s < ·) := by
    rw [← helems]
    ext x
    simp only [Finset.mem_filter, elems_append, Finset.mem_union]
    constructor
    · intro hx
      obtain ⟨t, ht, hle, -⟩ := mem_elems.mp hx
      exact ⟨.inr hx, (hq t ht).trans_le hle⟩
    · rintro ⟨hx | hx, hlt⟩
      · obtain ⟨t, ht, -, hle⟩ := mem_elems.mp hx
        have := hp t ht
        omega
      · exact hx
  have hsize'' : l'.size = l.size := hsize'.trans hsize
  refine ⟨l', hrun, ⟨hsize'' ▸ h.pos, hsize'' ▸ h.small, ⟨hlays, hordq, ?_⟩, ?_, fun k hk => ?_⟩, hset,
    hsize'⟩
  · rw [hset, hsize'']
    intro x hx y hy
    exact h.holds.span x (Finset.mem_of_mem_filter x hx) y (Finset.mem_of_mem_filter y hy)
  · have htotal : total runs = total (p ++ q) := by
      rw [← h.holds.ordered.card_elems, ← hord.card_elems, helems]
    rw [hlen, hlength, h.length, htotal, total_append]
    omega
  · obtain ⟨hk', hout⟩ := hkept k hk
    obtain ⟨t, ht, hslot⟩ := h.lastInsert k (hlast ▸ hk')
    obtain ⟨t', ht', heq⟩ := hstarts t ht
    rw [hsize'']
    rcases List.mem_append.mp ht' with ht' | ht'
    · exact absurd (by rw [heq, hsize, hslot]) (hout t' ht')
    · exact ⟨t', ht', by rw [heq, hslot]⟩

/-- Up to the end of a node. -/
theorem removed_node {s : Nat} (h : Represents l c (p ++ r :: q)) (hrs : r.2 ≤ s) (hq : ∀ t ∈ q, s < t.1) :
    ∃ l' runs', removeNodes (l.size + 1) { l with head := l.next (slot l.size c r.1) } l.head = some l' ∧
      Represents l' c runs' ∧ elems runs' = (elems (p ++ r :: q)).filter (s < ·) ∧ l'.size = l.size := by
  have hassoc : p ++ [r] ++ q = p ++ r :: q := by simp
  obtain ⟨l', hrun, hrep, helems, hsize⟩ :=
    removed (p := p ++ [r]) { l with head := l.next (slot l.size c r.1) } h rfl
      (hassoc ▸ h.holds.toLayout) h.next_eq (hassoc ▸ h.holds.ordered) (by rw [hassoc]) rfl
      (fun t ht => by
        rcases List.mem_append.mp ht with ht | ht
        · have := (Ordered.append_iff.mp h.holds.ordered).2.2 t ht r List.mem_cons_self
          have := h.holds.ordered.le r (by simp)
          omega
        · obtain rfl := List.mem_singleton.mp ht
          exact hrs) hq rfl fun t ht => ⟨t, by rwa [hassoc], rfl⟩
  exact ⟨l', q, hrun, hrep, helems, hsize⟩

/-- Up to a number in a node. -/
theorem removed_cut {s : Nat} (h : Represents l c (p ++ r :: q)) (hrs : r.1 ≤ s) (hsr : s < r.2) :
    ∃ l' runs', removeNodes (l.size + 1)
        (l.cutNode (slot l.size c r.1) (slot l.size c s) (seqOf s) (seqOf r.2) (lastOf seqOf (r.1, s)))
        l.head = some l' ∧
      Represents l' c runs' ∧ elems runs' = (elems (p ++ r :: q)).filter (s < ·) ∧ l'.size = l.size := by
  obtain ⟨hordp, hordrq, hpr⟩ := Ordered.append_iff.mp h.holds.ordered
  obtain ⟨hle, hrq, hordq⟩ := Ordered.cons_iff.mp hordrq
  have hord : Ordered (p ++ [(r.1, s)] ++ (s + 1, r.2) :: q) := by
    rw [Ordered.append_iff, Ordered.append_iff]
    refine ⟨⟨hordp, Ordered.singleton hrs, fun t ht u hu => ?_⟩, Ordered.cons_iff.mpr ⟨hsr, hrq, hordq⟩,
      fun t ht u hu => ?_⟩
    · obtain rfl := List.mem_singleton.mp hu
      exact hpr t ht r List.mem_cons_self
    · have hts : t.2 ≤ s := by
        rcases List.mem_append.mp ht with ht | ht
        · have := hpr t ht r List.mem_cons_self
          omega
        · obtain rfl := List.mem_singleton.mp ht
          exact le_rfl
      rcases List.mem_cons.mp hu with rfl | hu
      · show t.2 < s + 1
        omega
      · have := hrq u hu
        omega
  have helems : elems (p ++ [(r.1, s)] ++ (s + 1, r.2) :: q) = elems (p ++ r :: q) := by
    ext x
    simp only [elems_append, elems_cons, elems_nil, Finset.mem_union, Finset.mem_Icc, Finset.union_empty,
      or_assoc]
    refine or_congr_right ?_
    rw [← or_assoc]
    refine or_congr_left ?_
    omega
  obtain ⟨l', hrun, hrep, helems', hsize⟩ :=
    removed (p := p ++ [(r.1, s)]) (q := (s + 1, r.2) :: q) (s := s)
      (l.cutNode (slot l.size c r.1) (slot l.size c s) (seqOf s) (seqOf r.2) (lastOf seqOf (r.1, s))) h rfl
      (h.cutNode hrs hsr) (congrArg some slot_succ) hord helems rfl
      (fun t ht => by
        rcases List.mem_append.mp ht with ht | ht
        · have := hpr t ht r List.mem_cons_self
          omega
        · obtain rfl := List.mem_singleton.mp ht
          exact le_rfl)
      (fun t ht => by
        rcases List.mem_cons.mp ht with rfl | ht
        · show s < s + 1
          omega
        · have := hrq t ht
          omega) rfl
      (fun t ht => by
        rcases List.mem_append.mp ht with ht | ht
        · exact ⟨t, by simp [ht], rfl⟩
        · rcases List.mem_cons.mp ht with rfl | ht
          · exact ⟨(t.1, s), by simp, rfl⟩
          · exact ⟨t, by simp [ht], rfl⟩)
  exact ⟨l', _, hrun, hrep, helems', hsize⟩

/-- **Removal.** What is up to the number goes. -/
theorem remove (h : Represents l c runs) {s : Nat} (hnear : ∀ x ∈ elems runs, Near seqNoTh x s) :
    ∃ l' runs', l.remove (seqOf s) = some l' ∧ Represents l' c runs' ∧
      elems runs' = (elems runs).filter (s < ·) ∧ l'.size = l.size := by
  unfold SndLossList.remove
  cases runs with
  | nil =>
      rw [if_pos (h.length_eq_zero_iff.mpr rfl)]
      exact ⟨l, [], rfl, h, rfl, rfl⟩
  | cons r rest =>
      obtain ⟨hhead, hfirst⟩ := h.head_eq
      have hord := h.holds.ordered
      have hne := mt h.length_eq_zero_iff.mp (List.cons_ne_nil r rest)
      have hr1 := hord.fst_mem (List.mem_cons_self (a := r) (l := rest))
      have hrnear := hnear _ hr1
      simp only [if_neg hne, hhead, hfirst, Option.bind_eq_bind, Option.bind_some, seqoff_eq hrnear]
      by_cases hzero : s = r.1
      · -- the first number
        subst hzero
        obtain ⟨runs', hrep, helems, hsize⟩ := h.popHead
        rw [if_pos (by omega)]
        refine ⟨_, runs', rfl, hrep, helems.trans ?_, hsize⟩
        ext x
        rw [Finset.mem_erase, Finset.mem_filter, and_comm]
        refine and_congr_right fun hx => ?_
        have := hord.le_of_mem hx
        omega
      · rw [if_neg (by omega)]
        by_cases hbefore : s < r.1
        · rw [if_neg (by omega)]
          refine ⟨l, _, rfl, h, (Finset.filter_true_of_mem fun x hx => ?_).symm, rfl⟩
          have := hord.le_of_mem hx
          omega
        · rw [if_pos (by omega), ← seqoff_eq hrnear, index_seqoff_ahead (by omega) hrnear.2,
            Option.bind_some, ← hhead]
          have hinj : ∀ t ∈ r :: rest, seqOf t.1 = seqOf s → t.1 = s := fun t ht =>
            (seqOf_inj (hnear _ (hord.fst_mem ht))).mp
          by_cases hstart : ∃ t ∈ r :: rest, t.1 = s
          · -- a node that starts with the number
            rw [if_pos ((h.holds.start_iff hinj).mpr hstart)]
            obtain ⟨t, ht, rfl⟩ := hstart
            obtain ⟨p, q, hsplit⟩ := List.append_of_mem ht
            have hle := hord.le t ht
            rw [(h.holds.live t ht).2]
            rw [hsplit] at h ⊢
            rcases Nat.eq_or_lt_of_le hle with hone | hmany
            · rw [lastOf, if_neg (by omega)]
              have hq := (Ordered.cons_iff.mp (Ordered.append_iff.mp h.holds.ordered).2.1).2.1
              exact h.removed_node hone.ge fun u hu => hone ▸ hq u hu
            · rw [lastOf_of_lt hmany, ← lastOf_single seqOf t.1]
              exact h.removed_cut le_rfl hmany
          · -- the node before it
            rw [if_neg (mt (h.holds.start_iff hinj).mp hstart)]
            have hfuel : rest.length ≤ l.size := by
              have := h.holds.length_le h.pos
              rw [List.length_cons] at this
              omega
            obtain ⟨p, t, q, hsplit, hsearch, hts, hq⟩ :=
              searchPrior_eq (p := []) rest l.size h hnear (by omega) hfuel
            rw [List.nil_append] at hsplit
            rw [hsearch, Option.bind_some]
            rw [hsplit] at h hstart ⊢
            have ht : t ∈ p ++ t :: q := by simp
            have hle := h.holds.ordered.le t ht
            have hbehind : ∀ u ∈ q, s < u.1 := fun u hu =>
              lt_of_le_of_ne (hq u hu) fun heq => hstart ⟨u, by simp [hu], heq.symm⟩
            rw [(h.holds.live t ht).2]
            rcases Nat.eq_or_lt_of_le hle with hone | hmany
            · rw [lastOf, if_neg (by omega)]
              exact h.removed_node (by omega) hbehind
            · have hcmp := seqcmp_pos_iff (hnear _ (by
                rw [hsplit]
                exact h.holds.ordered.snd_mem ht))
              rw [lastOf_of_lt hmany]
              by_cases hin : s < t.2
              · simp only [if_pos (hcmp.mpr hin)]
                rw [← lastOf_of_lt hts]
                exact h.removed_cut hts.le hin
              · simp only [if_neg (mt hcmp.mp hin)]
                exact h.removed_node (by omega) hbehind

end Represents

end SndLossList

end FusionFS.Udt
