import FusionFS.Udt.LossCoalescing

/-!
# Where a loss is inserted

The five places an insertion starts from: before the head, at the start of a node, in a node, behind a
node, and in an empty list.
-/

namespace FusionFS.Udt

open IntervalSet IntervalSlots SerialNumber SlotChain

namespace SndLossList

variable {l : SndLossList} {c a b i j : Nat} {runs p q : Runs} {r : Nat × Nat}

/-- The end of a new node. -/
theorem putLast_eq {k : Nat} (hij : i ≤ j) (hlt : j < i + seqNoTh) :
    l.putLast k (seqOf i) (seqOf j) = if i < j then Function.update l.data2 k (some (seqOf j)) else l.data2 := by
  have hne : seqOf j ≠ seqOf i ↔ i < j := by
    rw [Ne, seqOf_inj ⟨by omega, by omega⟩]
    omega
  rw [putLast]
  simp only [hne]

namespace Represents

theorem length_eq_zero_iff (h : Represents l c runs) : l.length = 0 ↔ runs = [] := by
  rw [h.length, h.holds.ordered.total_eq_zero_iff]

theorem near (h : Represents l c runs) {x y : Nat} (hx : x ∈ elems runs) (hy : y ∈ elems runs) :
    Near seqNoTh x y := by
  have hxy := h.holds.span x hx y hy
  have hyx := h.holds.span y hy x hx
  have := h.small
  exact ⟨by omega, by omega⟩

/-- A new node between others. Its slot is not in use. -/
theorem place_new (h : Represents l c (p ++ q)) (hij : i ≤ j) (hp : ∀ r ∈ p, r.2 < i)
    (hq : ∀ r ∈ q, i < r.1)
    (hspan : ∀ x ∈ elems (p ++ q) ∪ Finset.Icc i j, ∀ y ∈ elems (p ++ q) ∪ Finset.Icc i j, y < x + l.size)
    (next : Option Nat → Option Nat) (hnext : next = Function.update (Function.update (links l.head l.next) (some (slot l.size c i))
      (slots l.size c q).head?) (slots l.size c p).getLast? (some (slot l.size c i))) :
    Ordered (p ++ (i, i) :: q) ∧
      Layout l.size c seqOf (Function.update l.data1 (slot l.size c i) (some (seqOf i)))
        (l.putLast (slot l.size c i) (seqOf i) (seqOf j)) next (p ++ (i, j) :: q) := by
  have hsmall := h.small
  have hi : i ∈ elems (p ++ q) ∪ Finset.Icc i j := by simp [hij]
  have hj : j ∈ elems (p ++ q) ∪ Finset.Icc i j := by simp [hij]
  have hsize := hspan i hi j hj
  obtain ⟨hordp, hordq, -⟩ := Ordered.append_iff.mp h.holds.ordered
  have hord : Ordered (p ++ (i, i) :: q) := by
    refine Ordered.append_iff.mpr ⟨hordp, Ordered.cons_iff.mpr ⟨le_rfl, hq, hordq⟩, fun r hr s hs => ?_⟩
    rcases List.mem_cons.mp hs with rfl | hs
    · exact hp r hr
    · exact (hp r hr).trans (hq s hs)
  have hnodup : (slots l.size c (p ++ ([(i, j)] ++ q))).Nodup := by
    have key : (slots l.size c (p ++ (i, i) :: q)).Nodup := by
      apply nodup_slots hord
      intro x hx y hy
      have hsub : ∀ z ∈ elems (p ++ (i, i) :: q), z ∈ elems (p ++ q) ∪ Finset.Icc i j := by
        intro z hz
        simp only [elems_append, elems_cons, Finset.mem_union, Finset.mem_Icc] at hz ⊢
        rcases hz with hz | hz | hz
        · exact .inl (.inl hz)
        · exact .inr ⟨hz.1, by omega⟩
        · exact .inl (.inr hz)
      exact hspan x (hsub x hx) y (hsub y hy)
    simpa using key
  refine ⟨hord, Layout.edit p [] [(i, j)] q h.holds.toLayout hnodup ?_ (by simp) ?_ ?_⟩
  · intro t ht
    obtain rfl := List.mem_singleton.mp ht
    refine ⟨Function.update_self .., ?_⟩
    rw [putLast_eq hij (by omega)]
    by_cases hlt : i < j
    · rw [if_pos hlt, Function.update_self, lastOf_of_lt hlt]
    · rw [if_neg hlt, lastOf, if_neg hlt]
      refine (h.holds.dead _ fun hk => ?_).2
      rw [slots_append, slots_append, slots_cons, slots_nil] at hnodup
      rw [slots_append, List.mem_append] at hk
      rcases hk with hk | hk
      · exact (List.nodup_append.mp hnodup).2.2 _ hk _ (by simp) rfl
      · exact (List.nodup_cons.mp (List.nodup_append.mp hnodup).2.1).1 hk
  · intro k _ hk
    have hki : k ≠ slot l.size c i := hk (i, j) List.mem_cons_self
    refine ⟨Function.update_of_ne hki .., ?_⟩
    rw [putLast_eq hij (by omega)]
    split
    · exact Function.update_of_ne hki ..
    · rfl
  · have hleads := h.holds.leads
    have hold := h.holds.nodup
    rw [slots_append] at hleads hold
    rw [slots_append, slots_append, slots_cons, slots_nil] at hnodup ⊢
    exact hnext ▸ Leads.relink _ [] _ hleads hold hnodup

theorem next_eq (h : Represents l c (p ++ r :: q)) :
    l.next (slot l.size c r.1) = (slots l.size c q).head? :=
  h.holds.next_eq

/-- Before the first node. -/
theorem place_front (h : Represents l c runs) (hij : i ≤ j) (hbefore : ∀ r ∈ runs, i < r.1)
    (hspan : ∀ x ∈ elems runs ∪ Finset.Icc i j, ∀ y ∈ elems runs ∪ Finset.Icc i j, y < x + l.size)
    {head : Nat} (hhead : l.head = some head) : Placed { l with
      data1 := Function.update l.data1 (slot l.size c i) (some (seqOf i))
      data2 := l.putLast (slot l.size c i) (seqOf i) (seqOf j)
      next := Function.update l.next (slot l.size c i) (some head)
      head := some (slot l.size c i)
      lastInsertPos := some (slot l.size c i)
      length := l.length + seqlen (seqOf i) (seqOf j) } c [] i j runs := by
  have hsmall := h.small
  have hi : i ∈ elems runs ∪ Finset.Icc i j := by simp [hij]
  have hj : j ∈ elems runs ∪ Finset.Icc i j := by simp [hij]
  have hsize := hspan i hi j hj
  have hfirst : l.head = (slots l.size c runs).head? := h.holds.head
  obtain ⟨hord, hlays⟩ := place_new (p := []) h hij (by simp) hbefore hspan
    (links (some (slot l.size c i)) (Function.update l.next (slot l.size c i) (some head))) (by
      rw [links_update_head l.head, links_update_next, ← hfirst, hhead]
      rfl)
  refine ⟨hsmall, hlays, hij, hord, ?_, rfl⟩
  show l.length + seqlen (seqOf i) (seqOf j) = _
  rw [h.length, seqlen_eq hij (by omega), List.nil_append, total_cons]
  omega

/-- Behind a node. -/
theorem place_behind (h : Represents l c (p ++ r :: q)) (hij : i ≤ j) (hri : r.2 < i)
    (hq : ∀ s ∈ q, i < s.1)
    (hspan : ∀ x ∈ elems (p ++ r :: q) ∪ Finset.Icc i j, ∀ y ∈ elems (p ++ r :: q) ∪ Finset.Icc i j,
      y < x + l.size) :
    Placed (l.newNode (slot l.size c r.1) (slot l.size c i) (seqOf i) (seqOf j)) c (p ++ [r]) i j q := by
  have hsmall := h.small
  have hnext := h.next_eq
  have hassoc : p ++ r :: q = p ++ [r] ++ q := by simp
  have hi : i ∈ elems (p ++ r :: q) ∪ Finset.Icc i j := by simp [hij]
  have hj : j ∈ elems (p ++ r :: q) ∪ Finset.Icc i j := by simp [hij]
  have hsize := hspan i hi j hj
  have hp := (Ordered.append_iff.mp h.holds.ordered).2.2
  rw [hassoc] at h hspan
  obtain ⟨hord, hlays⟩ := h.place_new hij (fun s hs => by
      rcases List.mem_append.mp hs with hs | hs
      · have := hp s hs r List.mem_cons_self
        have := h.holds.ordered.le r (by simp)
        omega
      · obtain rfl := List.mem_singleton.mp hs
        exact hri) hq hspan
    (links l.head (Function.update (Function.update l.next (slot l.size c i) (l.next (slot l.size c r.1)))
      (slot l.size c r.1) (some (slot l.size c i)))) (by
      rw [links_update_next, links_update_next, hnext, slots_append, slots_cons, slots_nil,
        List.getLast?_concat])
  refine ⟨hsmall, hlays, hij, hord, ?_, rfl⟩
  show l.length + seqlen (seqOf i) (seqOf j) = _
  rw [h.length, seqlen_eq hij (by omega)]
  simp only [total_append, total_cons, total_nil]
  omega

/-- A node that ends later. -/
theorem place_longer (h : Represents l c (p ++ r :: q)) (hrj : r.2 < j) {length : Int}
    (hlength : length = l.length + (j - r.2)) :
    Placed { l with
      lastInsertPos := some (slot l.size c r.1)
      data2 := Function.update l.data2 (slot l.size c r.1) (some (seqOf j))
      length := length } c p r.1 j q := by
  have hr := h.holds.ordered.le r (by simp)
  have hlive := h.holds.live r (by simp)
  have hnodup : (slots l.size c (p ++ ([(r.1, j)] ++ q))).Nodup := by
    simpa using h.holds.nodup
  have hleads : Leads (links l.head l.next) (slots l.size c (p ++ ([(r.1, j)] ++ q))) := by
    simpa using h.holds.leads
  refine ⟨h.small, Layout.edit p [r] [(r.1, j)] q h.holds.toLayout hnodup ?_ ?_ ?_ hleads, by omega, ?_,
    ?_, rfl⟩
  · intro t ht
    obtain rfl := List.mem_singleton.mp ht
    exact ⟨hlive.1, (Function.update_self ..).trans (lastOf_of_lt (by omega)).symm⟩
  · intro t ht hout
    obtain rfl := List.mem_singleton.mp ht
    exact absurd rfl (hout (t.1, j) List.mem_cons_self)
  · intro k hk _
    exact ⟨rfl, Function.update_of_ne (hk r List.mem_cons_self) ..⟩
  · have hord : Ordered (p ++ ([r] ++ q)) := h.holds.ordered
    apply hord.replace (Ordered.singleton (le_refl r.1) : Ordered [(r.1, r.1)])
    · intro t ht
      obtain rfl := List.mem_singleton.mp ht
      exact ⟨r, List.mem_cons_self, le_rfl⟩
    · intro t ht
      obtain rfl := List.mem_singleton.mp ht
      exact ⟨r, List.mem_cons_self, hr⟩
  · show length = _
    rw [hlength, h.length]
    simp only [total_append, total_cons]
    omega

/-- A node that stays as it is. -/
theorem place_same (h : Represents l c (p ++ r :: q)) :
    Placed { l with lastInsertPos := some (slot l.size c r.1) } c p r.1 r.2 q := by
  have hr := h.holds.ordered.le r (by simp)
  have hord : Ordered (p ++ ([r] ++ q)) := h.holds.ordered
  refine ⟨h.small, h.holds.toLayout, hr, ?_, h.length, rfl⟩
  apply hord.replace (Ordered.singleton (le_refl r.1) : Ordered [(r.1, r.1)])
  · intro t ht
    obtain rfl := List.mem_singleton.mp ht
    exact ⟨r, List.mem_cons_self, le_rfl⟩
  · intro t ht
    obtain rfl := List.mem_singleton.mp ht
    exact ⟨r, List.mem_cons_self, hr⟩

theorem elems_widen (hb : Finset.Icc r.1 b = Finset.Icc r.1 r.2 ∪ Finset.Icc i j) :
    elems (p ++ (r.1, b) :: q) = elems (p ++ r :: q) ∪ Finset.Icc i j := by
  rw [elems_append, elems_append, elems_cons, elems_cons, hb]
  ext x
  simp only [Finset.mem_union]
  tauto

/-- At the start of a node. -/
theorem lengthen_eq (h : Represents l c (p ++ r :: q)) (hrj : r.1 ≤ j) (hlt : j < r.1 + l.size) :
    (∃ l' b, { l with lastInsertPos := some (slot l.size c r.1) }.lengthen (slot l.size c r.1) (seqOf r.1)
        (seqOf j) = some l' ∧ l'.size = l.size ∧ Placed l' c p r.1 b q ∧
        elems (p ++ (r.1, b) :: q) = elems (p ++ r :: q) ∪ Finset.Icc r.1 j) ∨
      { l with lastInsertPos := some (slot l.size c r.1) }.lengthen (slot l.size c r.1) (seqOf r.1)
        (seqOf j) = none ∧ r.1 < r.2 ∧ j ≤ r.2 := by
  have hr : r ∈ p ++ r :: q := by simp
  have hsmall := h.small
  have hle := h.holds.ordered.le r hr
  have hdata := (h.holds.live r hr).2
  have hspan := h.holds.span _ (h.holds.ordered.fst_mem hr) _ (h.holds.ordered.snd_mem hr)
  unfold lengthen
  simp only [hdata]
  rcases Nat.eq_or_lt_of_le hle with heq | hlast
  · rw [lastOf, if_neg (by omega)]
    have hne : seqOf j ≠ seqOf r.1 ↔ r.1 < j := by
      rw [Ne, seqOf_inj ⟨by omega, by omega⟩]
      omega
    left
    by_cases hj : r.1 < j
    · refine ⟨_, j, if_pos (hne.mpr hj), rfl, h.place_longer (by omega) ?_, elems_widen ?_⟩
      · rw [seqlen_eq hrj (by omega)]
        omega
      · rw [← heq, Finset.union_eq_right.mpr]
        exact Finset.Icc_subset_Icc_right hrj
    · refine ⟨_, r.2, if_neg (mt hne.mp hj), rfl, h.place_same, elems_widen ?_⟩
      rw [show j = r.2 by omega, Finset.union_self]
  · rw [lastOf_of_lt hlast]
    have hcmp := seqcmp_pos_iff (show Near seqNoTh j r.2 from ⟨by omega, by omega⟩)
    by_cases hj : r.2 < j
    · refine .inl ⟨_, j, if_pos (hcmp.mpr hj), rfl, h.place_longer hj ?_, elems_widen ?_⟩
      · rw [seqlen_eq hj.le (by omega)]
        omega
      · rw [Finset.union_eq_right.mpr]
        exact Finset.Icc_subset_Icc_right hj.le
    · exact .inr ⟨if_neg (mt hcmp.mp hj), hlast, by omega⟩

/-! ### The node before a number -/

/-- The loop stops at the last node that starts before the number. -/
theorem searchPrior_eq (q : Runs) : ∀ {p : Runs} {r : Nat × Nat} (fuel : Nat),
    Represents l c (p ++ r :: q) → (∀ x ∈ elems (p ++ r :: q), Near seqNoTh x i) → r.1 < i →
    q.length ≤ fuel → ∃ p' r' q', p ++ r :: q = p' ++ r' :: q' ∧
      l.searchPrior (seqOf i) fuel (slot l.size c r.1) = some (slot l.size c r'.1) ∧ r'.1 < i ∧
      ∀ s ∈ q', i ≤ s.1 := by
  induction q with
  | nil =>
      intro p r fuel h _ hri _
      have hnext : l.next (slot l.size c r.1) = none := h.next_eq
      refine ⟨p, r, [], rfl, ?_, hri, by simp⟩
      cases fuel <;> rw [searchPrior, hnext]
  | cons s q ih =>
      intro p r fuel h hnear hri hfuel
      obtain ⟨fuel, rfl⟩ : ∃ m, fuel = m + 1 := ⟨fuel - 1, by simp at hfuel; omega⟩
      have hnext : l.next (slot l.size c r.1) = some (slot l.size c s.1) := h.next_eq
      have hs : s ∈ p ++ r :: s :: q := by simp
      have hord := h.holds.ordered
      have hcmp := seqcmp_neg_iff (hnear _ (hord.fst_mem hs))
      rw [searchPrior, hnext]
      simp only [(h.holds.live s hs).1, Option.bind_eq_bind, Option.bind_some]
      by_cases hsi : s.1 < i
      · have hassoc : p ++ r :: s :: q = p ++ [r] ++ s :: q := by simp
        obtain ⟨p', r', q', hsplit, hsearch, hr', hq'⟩ :=
          ih fuel (hassoc ▸ h) (hassoc ▸ hnear) hsi (by simpa using hfuel)
        rw [if_pos (hcmp.mpr hsi)]
        exact ⟨p', r', q', hassoc.trans hsplit, hsearch, hr', hq'⟩
      · rw [if_neg (mt hcmp.mp hsi)]
        refine ⟨p, r, s :: q, rfl, rfl, hri, fun t ht => ?_⟩
        rcases List.mem_cons.mp ht with rfl | ht
        · omega
        · have hsq := (Ordered.append_iff.mp hord).2.1
          have hrest := (Ordered.cons_iff.mp hsq).2.2
          have := (Ordered.cons_iff.mp hrest).2.1 t ht
          have := hord.le s hs
          omega

theorem head_eq (h : Represents l c (r :: runs)) :
    l.head = some (slot l.size c r.1) ∧ l.data1 (slot l.size c r.1) = some (seqOf r.1) :=
  ⟨h.holds.head, (h.holds.live r List.mem_cons_self).1⟩

/-- The search starts at some node before the number: the one of the last insertion, or the first. -/
theorem searchStart_eq (h : Represents l c (r :: runs)) (hnear : ∀ x ∈ elems (r :: runs), Near seqNoTh x i)
    (hri : r.1 < i) : ∃ s ∈ r :: runs, l.searchStart (slot l.size c r.1) (seqOf i) = slot l.size c s.1 ∧
      s.1 < i := by
  rw [searchStart]
  cases hlast : l.lastInsertPos with
  | none => exact ⟨r, List.mem_cons_self, rfl, hri⟩
  | some pos =>
      obtain ⟨s, hs, rfl⟩ := h.lastInsert pos hlast
      have hcmp := seqcmp_neg_iff (hnear _ (h.holds.ordered.fst_mem hs))
      simp only [(h.holds.live s hs).1, Option.any_some, decide_eq_true_eq]
      by_cases hsi : s.1 < i
      · rw [if_pos (hcmp.mpr hsi)]
        exact ⟨s, hs, rfl, hsi⟩
      · rw [if_neg (mt hcmp.mp hsi)]
        exact ⟨r, List.mem_cons_self, rfl, hri⟩

/-- The place of a number behind the first that starts no node. -/
theorem exists_prior (h : Represents l c (r :: runs)) (hnear : ∀ x ∈ elems (r :: runs), Near seqNoTh x i)
    (hri : r.1 < i) : ∃ p' r' q', r :: runs = p' ++ r' :: q' ∧
      l.searchPrior (seqOf i) l.size (l.searchStart (slot l.size c r.1) (seqOf i)) =
        some (slot l.size c r'.1) ∧ r'.1 < i ∧ ∀ s ∈ q', i ≤ s.1 := by
  obtain ⟨s, hs, hstart, hsi⟩ := h.searchStart_eq hnear hri
  obtain ⟨p, q, hsplit⟩ := List.append_of_mem hs
  have hfuel : q.length ≤ l.size := by
    have := h.holds.length_le h.pos
    rw [hsplit] at this
    simp only [List.length_append, List.length_cons] at this
    omega
  rw [hsplit] at h hnear ⊢
  rw [hstart]
  exact searchPrior_eq q l.size h hnear hsi hfuel

/-! ### The insertion -/

/-- What an insertion does before it coalesces. -/
def PlacedAt (l : SndLossList) (c : Nat) (runs : Runs) (i j : Nat) (l' : SndLossList) (start : Option Nat) :
    Prop :=
  (∃ p a b q, start = some (slot l.size c a) ∧ Placed l' c p a b q ∧
      elems (p ++ (a, b) :: q) = elems runs ∪ Finset.Icc i j) ∨
    start = none ∧ Represents l' c runs ∧ Finset.Icc i j ⊆ elems runs

/-- A place in a list where all was there already. -/
theorem touched (h : Represents l c (p ++ r :: q)) :
    Represents { l with lastInsertPos := some (slot l.size c r.1) } c (p ++ r :: q) :=
  ⟨h.pos, h.small, h.holds, h.length, fun k hk => ⟨r, by simp, Option.some.inj hk⟩⟩

theorem subset_elems (hri : r.1 ≤ i) (hjr : j ≤ r.2) : Finset.Icc i j ⊆ elems (p ++ r :: q) := by
  intro x hx
  rw [Finset.mem_Icc] at hx
  exact mem_elems.mpr ⟨r, by simp, by omega, by omega⟩

theorem place_eq (h : Represents l c (r :: runs)) (hij : i ≤ j)
    (hspan : ∀ x ∈ elems (r :: runs) ∪ Finset.Icc i j, ∀ y ∈ elems (r :: runs) ∪ Finset.Icc i j,
      y < x + l.size) :
    ∃ l' start, l.place (slot l.size c r.1) (slot l.size c i) ((i : Int) - r.1) (seqOf i) (seqOf j) =
        some (l', start) ∧ l'.size = l.size ∧ PlacedAt l c (r :: runs) i j l' start := by
  have hsmall := h.small
  have hord := h.holds.ordered
  have hold : ∀ x ∈ elems (r :: runs), x ∈ elems (r :: runs) ∪ Finset.Icc i j := fun x hx =>
    Finset.mem_union_left _ hx
  have hi : i ∈ elems (r :: runs) ∪ Finset.Icc i j := by simp [hij]
  have hj : j ∈ elems (r :: runs) ∪ Finset.Icc i j := by simp [hij]
  have hnear : ∀ x ∈ elems (r :: runs), Near seqNoTh x i := by
    intro x hx
    have hxi := hspan x (hold x hx) i hi
    have hix := hspan i hi x (hold x hx)
    exact ⟨by omega, by omega⟩
  have hr1 := hord.fst_mem (List.mem_cons_self (a := r) (l := runs))
  obtain ⟨hhead, hfirst⟩ := h.head_eq
  unfold place
  by_cases hbefore : i < r.1
  · rw [if_pos (by omega)]
    refine ⟨_, _, rfl, rfl, .inl ⟨[], i, j, r :: runs, rfl, h.place_front hij (fun s hs => ?_) hspan hhead,
      ?_⟩⟩
    · have := hord.le_of_mem (hord.fst_mem hs)
      omega
    · rw [List.nil_append, elems_cons, Finset.union_comm]
  · rw [if_neg (by omega)]
    by_cases hfront : i = r.1
    · -- the head
      subst hfront
      rw [if_neg (by omega)]
      by_cases hlt : r.1 < j
      · have hne : seqOf j ≠ seqOf r.1 := by
          have := hspan _ hi _ hj
          rw [Ne, seqOf_inj ⟨by omega, by omega⟩]
          omega
        simp only [if_pos hne]
        obtain ⟨l', b, hlengthen, hsize, hplaced, helems⟩ | ⟨hlengthen, hlast, hjr⟩ :=
          lengthen_eq (p := []) h hij (hspan _ hi _ hj)
        · rw [hlengthen]
          exact ⟨_, _, rfl, hsize, .inl ⟨[], r.1, b, runs, rfl, hplaced, helems⟩⟩
        · rw [hlengthen]
          exact ⟨_, _, rfl, rfl, .inr ⟨rfl, touched (p := []) h, subset_elems (p := []) le_rfl hjr⟩⟩
      · have heq : seqOf j = seqOf r.1 := by rw [show j = r.1 by omega]
        simp only [heq, ne_eq, not_true_eq_false, if_false]
        have hle := hord.le r List.mem_cons_self
        exact ⟨_, _, rfl, rfl, .inr ⟨rfl, touched (p := []) h, subset_elems (p := []) le_rfl (by omega)⟩⟩
    · rw [if_pos (by omega)]
      have hinj : ∀ s ∈ r :: runs, seqOf s.1 = seqOf i → s.1 = i := fun s hs =>
        (seqOf_inj (hnear _ (hord.fst_mem hs))).mp
      by_cases hstart : ∃ s ∈ r :: runs, s.1 = i
      · -- another node that starts with the number
        rw [if_pos ((h.holds.start_iff hinj).mpr hstart)]
        obtain ⟨s, hs, rfl⟩ := hstart
        obtain ⟨p, q, hsplit⟩ := List.append_of_mem hs
        rw [hsplit] at h hspan ⊢
        obtain ⟨l', b, hlengthen, hsize, hplaced, helems⟩ | ⟨hlengthen, hlast, hjr⟩ :=
          h.lengthen_eq hij (hspan _ (hsplit ▸ hi) _ (hsplit ▸ hj))
        · simp only [hlengthen]
          exact ⟨_, _, rfl, hsize, .inl ⟨p, s.1, b, q, rfl, hplaced, helems⟩⟩
        · simp only [hlengthen]
          exact ⟨_, _, rfl, rfl, .inr ⟨rfl, h.touched, subset_elems le_rfl hjr⟩⟩
      · rw [if_neg (mt (h.holds.start_iff hinj).mp hstart)]
        obtain ⟨p, s, q, hsplit, hsearch, hsi, hq⟩ := h.exists_prior hnear (by omega)
        rw [hsplit] at h hspan hstart hnear ⊢
        have hs : s ∈ p ++ s :: q := by simp
        have hle := h.holds.ordered.le s hs
        have hdata := (h.holds.live s hs).2
        have hbehind : ∀ t ∈ q, i < t.1 := fun t ht =>
          lt_of_le_of_ne (hq t ht) fun heq => hstart ⟨t, by simp [ht], heq.symm⟩
        have hplace_behind : s.2 < i → ∃ l' start,
            some (l.newNode (slot l.size c s.1) (slot l.size c i) (seqOf i) (seqOf j),
              some (slot l.size c i)) = some (l', start) ∧ l'.size = l.size ∧
            PlacedAt l c (p ++ s :: q) i j l' start := fun hsnd =>
          ⟨_, _, rfl, rfl, .inl ⟨p ++ [s], i, j, q, rfl, h.place_behind hij hsnd hbehind hspan, by
            simp only [elems_append, elems_cons, elems_nil, Finset.union_empty]
            ext x
            simp only [Finset.mem_union]
            tauto⟩⟩
        simp only [hsearch, Option.bind_eq_bind, Option.bind_some, hdata]
        rcases Nat.eq_or_lt_of_le hle with heq | hlast
        · rw [lastOf, if_neg (by omega)]
          exact hplace_behind (by omega)
        · rw [lastOf_of_lt hlast]
          have hcmpi := seqcmp_neg_iff (hnear _ (h.holds.ordered.snd_mem hs))
          by_cases hsnd : s.2 < i
          · simp only [if_pos (hcmpi.mpr hsnd)]
            exact hplace_behind hsnd
          · have hs1 : s.1 ∈ elems (p ++ s :: q) ∪ Finset.Icc i j :=
              Finset.mem_union_left _ (h.holds.ordered.fst_mem hs)
            have hwin := hspan _ hs1 _ (hsplit ▸ hj)
            have hsp := hspan _ hs1 _ (Finset.mem_union_left _ (h.holds.ordered.snd_mem hs))
            have hcmpj := seqcmp_neg_iff (show Near seqNoTh s.2 j from ⟨by omega, by omega⟩)
            simp only [if_neg (mt hcmpi.mp hsnd)]
            by_cases hsj : s.2 < j
            · simp only [if_pos (hcmpj.mpr hsj)]
              refine ⟨_, _, rfl, rfl, .inl ⟨p, s.1, j, q, rfl, h.place_longer hsj ?_, elems_widen ?_⟩⟩
              · rw [seqlen_eq hsj.le (by omega)]
                omega
              · ext x
                simp only [Finset.mem_union, Finset.mem_Icc]
                omega
            · simp only [if_neg (mt hcmpj.mp hsj)]
              exact ⟨_, _, rfl, rfl, .inr ⟨rfl, h.touched, subset_elems hsi.le (by omega)⟩⟩

theorem card_eq (h : Represents l c runs) : l.length = (elems runs).card := by
  rw [h.length, h.holds.ordered.card_elems]

/-- An empty list may start anywhere. -/
theorem rebase (h : Represents l c []) (c' : Nat) : Represents l c' [] := by
  refine ⟨h.pos, h.small, Holds.of_nil (fun k => h.holds.dead k (by simp)) (leads_nil.mp h.holds.leads),
    h.length, fun k hk => ?_⟩
  obtain ⟨r, hr, -⟩ := h.lastInsert k hk
  exact absurd hr List.not_mem_nil

/-- **Insertion.** Whatever part of the interval is there already, the list has all of it afterwards, and
the number that is returned is that of the new losses. -/
theorem insert (h : Represents l c runs) (hij : i ≤ j)
    (hspan : ∀ x ∈ elems runs ∪ Finset.Icc i j, ∀ y ∈ elems runs ∪ Finset.Icc i j, y < x + l.size) :
    ∃ l' c' runs', l.insert (seqOf i) (seqOf j) =
        some (l', ((elems runs ∪ Finset.Icc i j).card : Int) - (elems runs).card) ∧
      Represents l' c' runs' ∧ elems runs' = elems runs ∪ Finset.Icc i j ∧ l'.size = l.size := by
  have hsmall := h.small
  have hi : i ∈ elems runs ∪ Finset.Icc i j := by simp [hij]
  have hj : j ∈ elems runs ∪ Finset.Icc i j := by simp [hij]
  have hsize := hspan i hi j hj
  unfold SndLossList.insert
  by_cases hempty : l.length = 0
  · obtain rfl := h.length_eq_zero_iff.mp hempty
    obtain ⟨c', hc'⟩ := exists_slot_eq_zero h.pos i
    have hcard : l.length + seqlen (seqOf i) (seqOf j) =
        ((elems [] ∪ Finset.Icc i j).card : Int) - (elems []).card := by
      rw [hempty, seqlen_eq hij (by omega), elems_nil, Finset.empty_union, Nat.card_Icc, Finset.card_empty]
      omega
    have hplaced := (h.rebase c').place_new (p := []) hij (by simp) (by simp) hspan
      (links (some 0) (Function.update l.next 0 none)) (by
        rw [links_update_head l.head, links_update_next, hc']
        rfl)
    rw [hc'] at hplaced
    rw [if_pos hempty, hcard]
    refine ⟨_, c', [(i, j)], rfl, ⟨h.pos, hsmall, ⟨hplaced.2, Ordered.singleton hij, ?_⟩, ?_,
      fun k hk => ⟨(i, j), by simp, hc'.trans (Option.some.inj hk)⟩⟩, by simp, rfl⟩
    · simpa using hspan
    · show ((elems [] ∪ Finset.Icc i j).card : Int) - (elems []).card = _
      rw [← hcard, hempty, seqlen_eq hij (by omega), total_cons, total_nil]
      omega
  · obtain ⟨r, rest, rfl⟩ := List.exists_cons_of_ne_nil (mt h.length_eq_zero_iff.mpr hempty)
    obtain ⟨hhead, hfirst⟩ := h.head_eq
    have hr : r.1 ∈ elems (r :: rest) ∪ Finset.Icc i j :=
      Finset.mem_union_left _ (h.holds.ordered.fst_mem List.mem_cons_self)
    have hri := hspan _ hr _ hi
    have hir := hspan _ hi _ hr
    have hoff : seqoff (seqOf r.1) (seqOf i) = (i : Int) - r.1 := seqoff_eq ⟨by omega, by omega⟩
    have hloc := index_seqoff_add (c := c) hir hri hsmall
    obtain ⟨l', start, hplace, hsize', hat⟩ := h.place_eq hij hspan
    rw [hoff] at hloc
    simp only [if_neg hempty, hhead, hfirst, Option.bind_eq_bind, Option.bind_some, hoff, hloc, hplace]
    obtain ⟨p, a, b, q, rfl, hplaced, helems⟩ | ⟨rfl, hrep, hsub⟩ := hat
    · obtain ⟨l'', runs'', hrun, hrep, helems', hsize''⟩ := hplaced.coalesce (by rwa [helems, hsize'])
      rw [hsize'] at hrun
      simp only [hsize', hrun, Option.map_some, hrep.card_eq, h.card_eq]
      rw [helems', helems]
      exact ⟨l'', c, runs'', rfl, hrep, helems'.trans helems, hsize''.trans hsize'⟩
    · refine ⟨l', c, r :: rest, ?_, hrep, (Finset.union_eq_left.mpr hsub).symm, hsize'⟩
      rw [Finset.union_eq_left.mpr hsub]
      simp

end Represents

end SndLossList

end FusionFS.Udt
