import FusionFS.Udt.SndLossList

/-!
# Inserting a loss in the list of a sender

While an insertion is under way the nodes may overlap: their starts are in order, and the length counts
the numbers of each. The loop that coalesces them ends with a list of intervals that are apart.
-/

namespace FusionFS.Udt

open IntervalSet IntervalSlots SerialNumber SlotChain

namespace SndLossList

variable {l : SndLossList} {c a b i j : Nat} {runs p q : Runs} {r : Nat × Nat}

/-- The nodes of the list, which may overlap. -/
abbrev Lays (l : SndLossList) (c : Nat) (runs : Runs) : Prop :=
  Layout l.size c seqOf l.data1 l.data2 (links l.head l.next) runs

/-- The node `r` joins the one before it. -/
theorem Lays.join (h : l.Lays c (p ++ (a, b) :: r :: q)) (hab : a < b) (hle : r.1 ≤ r.2)
    {data2 : Nat → Option Nat} {length : Int}
    (hdata2 : data2 (slot l.size c a) = some (seqOf (max b r.2)))
    (hframe : ∀ k, k ≠ slot l.size c a → data2 k = l.data2 k) :
    Lays { l with
      data1 := Function.update l.data1 (slot l.size c r.1) none
      data2 := Function.update data2 (slot l.size c r.1) none
      next := Function.update l.next (slot l.size c a) (l.next (slot l.size c r.1))
      length := length } c (p ++ (a, max b r.2) :: q) := by
  have hnodup := h.nodup
  have hnext : l.next (slot l.size c r.1) = (slots l.size c q).head? :=
    Layout.next_eq (p := p ++ [(a, b)]) (by simpa using h)
  rw [slots_append, slots_cons, slots_cons] at hnodup
  have hright := List.nodup_cons.mp (List.nodup_append.mp hnodup).2.1
  have hne : slot l.size c a ≠ slot l.size c r.1 := fun heq => hright.1 (by simp [heq])
  have hsub : List.Sublist (slots l.size c (p ++ ([(a, max b r.2)] ++ q)))
      (slots l.size c p ++ slot l.size c a :: slot l.size c r.1 :: slots l.size c q) := by
    rw [slots_append, slots_append, slots_cons, slots_nil]
    exact List.Sublist.append_left (List.Sublist.cons_cons _ (List.sublist_cons_self ..)) _
  refine Layout.edit p [(a, b), r] [(a, max b r.2)] q h (hnodup.sublist hsub) ?_ ?_ ?_ ?_
  · intro t ht
    obtain rfl := List.mem_singleton.mp ht
    have hlive := h.live (a, b) (by simp)
    refine ⟨(Function.update_of_ne hne ..).trans hlive.1, (Function.update_of_ne hne ..).trans ?_⟩
    rw [hdata2, lastOf_of_lt (by omega)]
  · intro t ht hout
    rcases List.mem_cons.mp ht with rfl | ht
    · exact absurd rfl (hout (a, max b r.2) List.mem_cons_self)
    · obtain rfl := List.mem_singleton.mp ht
      exact ⟨Function.update_self .., Function.update_self ..⟩
  · intro k hk _
    have hka : k ≠ slot l.size c a := hk (a, b) List.mem_cons_self
    have hkr : k ≠ slot l.size c r.1 := hk r (by simp)
    exact ⟨Function.update_of_ne hkr .., (Function.update_of_ne hkr ..).trans (hframe k hka)⟩
  · have hleads := h.leads
    rw [slots_append, slots_cons, slots_cons] at hleads
    have key := Leads.unlink (slots l.size c p ++ [slot l.size c a]) [slot l.size c r.1]
      (slots l.size c q) (by simpa using hleads) (by simpa using hnodup)
    rw [List.getLast?_concat, ← hnext, ← links_update_next] at key
    simpa using key

/-- What the loop does to the node behind: how far the node reaches, and what is counted twice. -/
theorem joined_eq (hsmall : l.size ≤ seqNoTh) (hab : a < b) (hr : r.1 ≤ r.2) (har : a < r.1)
    (hbr : r.1 ≤ b + 1) (hspan : r.2 < a + l.size) (hba : b < a + l.size)
    (hdata : l.data2 (slot l.size c a) = some (seqOf b))
    (hdata' : l.data2 (slot l.size c r.1) = lastOf seqOf r) :
    (l.joined (slot l.size c a) (slot l.size c r.1) (seqOf r.1) (seqOf b)).1 (slot l.size c a) =
        some (seqOf (max b r.2)) ∧
      (∀ k, k ≠ slot l.size c a →
        (l.joined (slot l.size c a) (slot l.size c r.1) (seqOf r.1) (seqOf b)).1 k = l.data2 k) ∧
      (l.joined (slot l.size c a) (slot l.size c r.1) (seqOf r.1) (seqOf b)).2 =
        l.length - ((b : Int) - a + 1 + (r.2 - r.1 + 1) - ((max b r.2 : Nat) - a + 1)) := by
  have hframe : ∀ v, ∀ k, k ≠ slot l.size c a →
      Function.update l.data2 (slot l.size c a) v k = l.data2 k := fun v k hk =>
    Function.update_of_ne hk ..
  by_cases hlast : r.1 < r.2
  · have hend := hdata'.trans (lastOf_of_lt hlast)
    have hcmp := seqcmp_pos_iff (show Near seqNoTh r.2 b from ⟨by omega, by omega⟩)
    by_cases hreach : b < r.2
    · have hover := seqcmp_nonneg_iff (show Near seqNoTh b r.1 from ⟨by omega, by omega⟩)
      have hjoined : l.joined (slot l.size c a) (slot l.size c r.1) (seqOf r.1) (seqOf b) =
          (Function.update l.data2 (slot l.size c a) (some (seqOf r.2)),
            if 0 ≤ seqcmp (seqOf b) (seqOf r.1) then l.length - seqlen (seqOf r.1) (seqOf b)
            else l.length) := by
        rw [joined, hend]
        exact if_pos (hcmp.mpr hreach)
      rw [hjoined, max_eq_right hreach.le]
      refine ⟨Function.update_self .., hframe _, ?_⟩
      by_cases hle : r.1 ≤ b
      · rw [if_pos (hover.mpr hle), seqlen_eq hle (by omega)]
        omega
      · rw [if_neg (mt hover.mp hle)]
        omega
    · have hjoined : l.joined (slot l.size c a) (slot l.size c r.1) (seqOf r.1) (seqOf b) =
          (l.data2, l.length - seqlen (seqOf r.1) (seqOf r.2)) := by
        rw [joined, hend]
        exact if_neg (mt hcmp.mp hreach)
      rw [hjoined, max_eq_left (by omega), seqlen_eq hr (by omega)]
      exact ⟨hdata, fun k _ => rfl, by omega⟩
  · have hend : l.data2 (slot l.size c r.1) = none := hdata'.trans (if_neg hlast)
    have hsame : seqOf r.1 = incseq (seqOf b) ↔ r.1 = b + 1 := by
      rw [incseq_seqOf, seqOf_inj ⟨by omega, by omega⟩]
    by_cases hnext : r.1 = b + 1
    · have hjoined : l.joined (slot l.size c a) (slot l.size c r.1) (seqOf r.1) (seqOf b) =
          (Function.update l.data2 (slot l.size c a) (some (seqOf r.1)), l.length) := by
        rw [joined, hend]
        exact if_pos (hsame.mpr hnext)
      rw [hjoined, max_eq_right (by omega), show r.2 = r.1 by omega]
      exact ⟨Function.update_self .., hframe _, by omega⟩
    · have hjoined : l.joined (slot l.size c a) (slot l.size c r.1) (seqOf r.1) (seqOf b) =
          (l.data2, l.length - 1) := by
        rw [joined, hend]
        exact if_neg (mt hsame.mp hnext)
      rw [hjoined, max_eq_left (by omega)]
      exact ⟨hdata, fun k _ => rfl, by omega⟩

/-- **Coalescing.** The loop makes intervals that are apart of nodes that overlap from `(a, b)` on, with
the same numbers, each counted once. -/
theorem coalesce_eq (q : Runs) : ∀ {l : SndLossList} {b : Nat} (fuel : Nat),
    l.Lays c (p ++ (a, b) :: q) → q.length ≤ fuel → l.size ≤ seqNoTh → a ≤ b → Ordered q → (∀ s ∈ q, a < s.1) →
    (∀ x ∈ elems ((a, b) :: q), x < a + l.size) → l.length = total (p ++ (a, b) :: q) →
    ∃ l' b' q', coalesce (slot l.size c a) fuel l = some l' ∧ l'.Lays c (p ++ (a, b') :: q') ∧
      Ordered ((a, b') :: q') ∧ elems ((a, b') :: q') = elems ((a, b) :: q) ∧
      l'.length = total (p ++ (a, b') :: q') ∧ l'.size = l.size ∧ l'.lastInsertPos = l.lastInsertPos := by
  induction q with
  | nil =>
      intro l b fuel h _ _ hab _ _ _ hlength
      have hnext : l.next (slot l.size c a) = none := h.next_eq
      refine ⟨l, b, [], ?_, h, Ordered.singleton hab, rfl, hlength, rfl, rfl⟩
      cases fuel <;> rw [coalesce, hnext]
  | cons r q ih =>
      intro l b fuel h hfuel hsmall hab hq hstarts hwindow hlength
      obtain ⟨fuel, rfl⟩ : ∃ m, fuel = m + 1 := ⟨fuel - 1, by simp at hfuel; omega⟩
      obtain ⟨hrle, hrq, hq'⟩ := Ordered.cons_iff.mp hq
      have hnext : l.next (slot l.size c a) = some (slot l.size c r.1) := h.next_eq
      have hlive := h.live (a, b) (by simp)
      have hlive' := h.live r (by simp)
      have har := hstarts r List.mem_cons_self
      have hb : b < a + l.size := hwindow b (by simp [hab])
      have hr2 : r.2 < a + l.size := hwindow r.2 (by simp [hrle])
      have hdone : (∀ s ∈ r :: q, b < s.1) → ∃ l' b' q', some l = some l' ∧
          l'.Lays c (p ++ (a, b') :: q') ∧ Ordered ((a, b') :: q') ∧
          elems ((a, b') :: q') = elems ((a, b) :: r :: q) ∧ l'.length = total (p ++ (a, b') :: q') ∧
          l'.size = l.size ∧ l'.lastInsertPos = l.lastInsertPos := fun hlt =>
        ⟨l, b, r :: q, rfl, h, Ordered.cons_iff.mpr ⟨hab, hlt, hq⟩, rfl, hlength, rfl, rfl⟩
      rw [coalesce, hnext, hlive.2]
      rcases Nat.eq_or_lt_of_le hab with rfl | hlt
      · rw [lastOf_single]
        exact hdone hstarts
      · have hnear : Near seqNoTh r.1 (b + 1) := ⟨by omega, by omega⟩
        have hcmp := seqcmp_nonpos_iff hnear
        rw [lastOf_of_lt hlt]
        simp only [hlive'.1, Option.bind_eq_bind, Option.bind_some, incseq_seqOf]
        by_cases hjoin : r.1 ≤ b + 1
        · obtain ⟨hdata2, hframe, hlen⟩ :=
            joined_eq hsmall hlt hrle har hjoin hr2 hb (hlive.2.trans (lastOf_of_lt hlt)) hlive'.2
          rw [if_pos (hcmp.mpr hjoin)]
          have hunion : elems ((a, max b r.2) :: q) = elems ((a, b) :: r :: q) := by
            rw [elems_cons, elems_cons, elems_cons, ← Finset.union_assoc]
            congr 1
            ext x
            simp only [Finset.mem_union, Finset.mem_Icc]
            omega
          obtain ⟨l', b', q', hrest, hlays, hord, helems, hlength', hsize, hlast⟩ :=
            ih fuel (h.join hlt hrle hdata2 hframe) (by simpa using hfuel) hsmall (by omega) hq'
              (fun s hs => hstarts s (List.mem_cons_of_mem _ hs)) (by rwa [hunion]) (by
                refine hlen.trans ?_
                rw [hlength]
                simp only [total_append, total_cons]
                omega)
          exact ⟨l', b', q', hrest, hlays, hord, helems.trans hunion, hlength', hsize, hlast⟩
        · rw [if_neg (mt hcmp.mp hjoin)]
          refine hdone fun s hs => ?_
          rcases List.mem_cons.mp hs with rfl | hs
          · omega
          · have := hrq s hs
            omega

/-! ### Where an insertion starts from -/

/-- A list with one node, `(a, b)`, that may overlap those behind it. -/
structure Placed (l : SndLossList) (c : Nat) (p : Runs) (a b : Nat) (q : Runs) : Prop where
  small : l.size ≤ seqNoTh
  lays : l.Lays c (p ++ (a, b) :: q)
  le : a ≤ b
  ordered : Ordered (p ++ (a, a) :: q)
  length : l.length = total (p ++ (a, b) :: q)
  lastInsert : l.lastInsertPos = some (slot l.size c a)

theorem Placed.coalesce (h : Placed l c p a b q)
    (hspan : ∀ x ∈ elems (p ++ (a, b) :: q), ∀ y ∈ elems (p ++ (a, b) :: q), y < x + l.size) :
    ∃ l' runs', SndLossList.coalesce (slot l.size c a) l.size l = some l' ∧ Represents l' c runs' ∧
      elems runs' = elems (p ++ (a, b) :: q) ∧ l'.size = l.size := by
  obtain ⟨hp, haq, hpaq⟩ := Ordered.append_iff.mp h.ordered
  obtain ⟨-, hstarts, hq⟩ := Ordered.cons_iff.mp haq
  have ha : a ∈ elems (p ++ (a, b) :: q) := by
    simp only [elems_append, elems_cons, Finset.mem_union, Finset.mem_Icc]
    exact .inr (.inl ⟨le_rfl, h.le⟩)
  have hpos : 0 < l.size := by
    have := hspan a ha a ha
    omega
  have hfuel : q.length ≤ l.size := by
    have := h.lays.length_le hpos
    simp only [List.length_append, List.length_cons] at this
    omega
  obtain ⟨l', b', q', hrun, hlays, hord, helems, hlength, hsize, hlast⟩ :=
    coalesce_eq q l.size h.lays hfuel h.small h.le hq hstarts (fun x hx => hspan a ha x (by
      rw [elems_append]
      exact Finset.mem_union_right _ hx)) h.length
  have hunion : elems (p ++ (a, b') :: q') = elems (p ++ (a, b) :: q) := by
    rw [elems_append, helems, elems_append]
  refine ⟨l', p ++ (a, b') :: q', hrun, ⟨hsize ▸ hpos, hsize ▸ h.small, ⟨hlays, ?_, ?_⟩, hlength,
    fun k hk => ?_⟩, hunion, hsize⟩
  · refine Ordered.append_iff.mpr ⟨hp, hord, fun r hr s hs => ?_⟩
    have hra := hpaq r hr (a, a) List.mem_cons_self
    have has : a ≤ s.1 := by
      have hfst : s.1 ∈ elems ((a, b') :: q') := hord.fst_mem hs
      exact hord.le_of_mem hfst
    exact hra.trans_le has
  · rw [hunion, hsize]
    exact hspan
  · rw [hlast, h.lastInsert, Option.some.injEq] at hk
    exact ⟨(a, b'), by simp, by rw [hsize]; exact hk⟩

end SndLossList

end FusionFS.Udt
