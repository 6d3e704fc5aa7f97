import FusionFS.Udt.LossRemoval
import Mathlib.Data.Finset.Max

/-!
# What the loss list of a receiver answers

After any run of insertions and removals the list answers for the set of the numbers that were put in
and not taken out, however often the sequence numbers have started over. Two kinds of range are not
taken out: one that goes around leaves a loss with the greatest sequence number, and for one that ends
at that number the loop counter overflows.
-/

namespace FusionFS.Udt

open IntervalSet IntervalSlots SerialNumber SlotChain Transition

namespace RcvLossList.Represents

variable {l : RcvLossList} {c i j : Nat} {runs p q : Runs} {r : Nat × Nat}

/-- **Insertion** behind all losses. -/
theorem insert (h : Represents l c runs) (hij : i ≤ j) (hsize : j < i + l.size)
    (hbehind : ∀ x ∈ elems runs, x < i ∧ j < x + l.size) :
    ∃ l' c' runs', l.insert (seqOf i) (seqOf j) = some l' ∧ Represents l' c' runs' ∧
      elems runs' = elems runs ∪ Finset.Icc i j ∧ l'.size = l.size := by
  cases runs using List.reverseRecOn with
  | nil =>
      obtain ⟨l', c', hinsert, hrep, hsize'⟩ := h.insert_empty hij hsize
      exact ⟨l', c', [(i, j)], hinsert, hrep, by simp, hsize'⟩
  | append_singleton p r =>
      have hr := h.holds.ordered.snd_mem (List.mem_append_right p List.mem_cons_self)
      obtain ⟨l', runs', hinsert, hrep, helems, hsize'⟩ :=
        h.insert_behind hij (hbehind _ hr).1 fun x hx => (hbehind x hx).2
      exact ⟨l', c, runs', hinsert, hrep, helems, hsize'⟩

/-! ### Ranges -/

/-- A loop of removals. -/
theorem removeAll (xs : List Nat) (h : Represents l c runs)
    (hnear : ∀ x ∈ elems runs, ∀ s ∈ xs, Near seqNoTh x s) :
    ∃ l' runs', l.removeAll (xs.map seqOf) = some l' ∧ Represents l' c runs' ∧
      elems runs' = (elems runs).filter (· ∉ xs) ∧ l'.size = l.size := by
  induction xs generalizing l runs with
  | nil => exact ⟨l, runs, rfl, h, by simp, rfl⟩
  | cons s xs ih =>
      obtain ⟨l₁, runs₁, hremove, h₁, helems₁, hsize₁⟩ :=
        h.remove fun x hx => hnear x hx s List.mem_cons_self
      have hnear₁ : ∀ x ∈ elems runs₁, ∀ t ∈ xs, Near seqNoTh x t := fun x hx t ht =>
        hnear x (Finset.mem_of_mem_erase (helems₁ ▸ hx)) t (List.mem_cons_of_mem _ ht)
      obtain ⟨l₂, runs₂, hrest, h₂, helems₂, hsize₂⟩ := ih h₁ hnear₁
      refine ⟨l₂, runs₂, ?_, h₂, ?_, hsize₂.trans hsize₁⟩
      · rw [RcvLossList.removeAll, List.map_cons, List.foldlM_cons, hremove]
        exact hrest
      · rw [helems₂, helems₁]
        ext x
        simp only [Finset.mem_filter, Finset.mem_erase, List.mem_cons, not_or]
        tauto

/-- **Removal of a range.** A range that goes around leaves the loss with the greatest number. -/
theorem removeRange (h : Represents l c runs) (hij : i ≤ j) (hlt : j < i + seqNoTh)
    (hend : seqOf j ≠ maxSeqNo) (hnear : ∀ x ∈ elems runs, Near seqNoTh x i ∧ Near seqNoTh x j) :
    ∃ l' runs', l.removeRange (seqOf i) (seqOf j) = some l' ∧ Represents l' c runs' ∧
      elems runs' = (elems runs).filter (fun x => ¬ (i ≤ x ∧ x ≤ j ∧ seqOf x ≠ maxSeqNo)) ∧
      l'.size = l.size := by
  have hth := seqNoTh_le
  have hi := seqOf_le (i := i)
  have hmid : ∀ x ∈ elems runs, ∀ s, i ≤ s → s ≤ j → Near seqNoTh x s := by
    intro x hx s his hsj
    obtain ⟨⟨hxi, hix⟩, hxj, hjx⟩ := hnear x hx
    exact ⟨by omega, by omega⟩
  have hnum : ∀ x, i ≤ x → x ≤ j → seqOf x =
      if seqOf i + (x - i) ≤ maxSeqNo then seqOf i + (x - i) else seqOf i + (x - i) - (maxSeqNo + 1) := by
    intro x hix hxj
    rw [← seqOf_add (by omega), show i + (x - i) = x by omega]
  have hj := hnum j hij le_rfl
  unfold RcvLossList.removeRange
  by_cases hwrap : seqOf i ≤ seqOf j
  · have hle : seqOf i + (j - i) ≤ maxSeqNo := by
      by_contra hgt
      rw [if_neg hgt] at hj
      omega
    rw [if_pos hle] at hj
    rw [if_pos hwrap, if_neg hend, show seqOf j + 1 - seqOf i = j + 1 - i by omega,
      ← map_seqOf_range' (by omega)]
    obtain ⟨l', runs', hremove, hrep, helems, hsize⟩ := h.removeAll (List.range' i (j + 1 - i))
      fun x hx s hs => hmid x hx s (by simp at hs; omega) (by simp at hs; omega)
    refine ⟨l', runs', hremove, hrep, ?_, hsize⟩
    rw [helems]
    ext x
    simp only [Finset.mem_filter, List.mem_range'_1, not_and, not_not]
    refine and_congr_right fun _ => ⟨fun hout hix hxj => ?_, fun hmax hix hxj => ?_⟩
    · omega
    · have hx := hnum x hix (by omega)
      rw [if_pos (by omega)] at hx
      have := hmax hix (by omega)
      omega
  · have hgt : ¬ seqOf i + (j - i) ≤ maxSeqNo := by
      intro hle
      rw [if_pos hle] at hj
      omega
    rw [if_neg hgt] at hj
    obtain ⟨m, hm⟩ : ∃ m, m = maxSeqNo - seqOf i := ⟨_, rfl⟩
    -- the count with the number 0
    obtain ⟨k, hk⟩ : ∃ k, k = i + m + 1 := ⟨_, rfl⟩
    have hzero : seqOf k = 0 := by
      rw [hnum k (by omega) (by omega), if_neg (by omega)]
      omega
    have hrest := map_seqOf_range' (i := k) (n := seqOf j + 1) (by omega)
    rw [hzero] at hrest
    rw [if_neg hwrap, ← hm, ← map_seqOf_range' (by omega), ← hrest]
    obtain ⟨l₁, runs₁, hremove₁, h₁, helems₁, hsize₁⟩ := h.removeAll (List.range' i m)
      fun x hx s hs => hmid x hx s (by simp at hs; omega) (by simp at hs; omega)
    obtain ⟨l₂, runs₂, hremove₂, h₂, helems₂, hsize₂⟩ := h₁.removeAll (List.range' k (seqOf j + 1))
      fun x hx s hs => hmid x (Finset.mem_of_mem_filter x (helems₁ ▸ hx)) s (by simp at hs; omega)
        (by simp at hs; omega)
    refine ⟨l₂, runs₂, ?_, h₂, ?_, hsize₂.trans hsize₁⟩
    · rw [hremove₁]
      exact hremove₂
    · rw [helems₂, helems₁]
      ext x
      simp only [Finset.mem_filter, List.mem_range'_1, and_assoc]
      refine and_congr_right fun _ => ⟨?_, fun hout => ⟨?_, ?_⟩⟩
      · rintro ⟨hbefore, hafter⟩ ⟨hix, hxj, hne⟩
        have hx := hnum x hix hxj
        split at hx <;> omega
      · rintro ⟨hix, hxm⟩
        have hx := hnum x hix (by omega)
        rw [if_pos (by omega)] at hx
        exact hout ⟨hix, by omega, by omega⟩
      · rintro ⟨hkx, hxj⟩
        have hx := hnum x (by omega) (by omega)
        rw [if_neg (by omega)] at hx
        exact hout ⟨by omega, by omega, by omega⟩

/-! ### Questions -/

/-- The test of `find` on one node. -/
theorem findFrom_eq (q : Runs) : ∀ (p : Runs) (fuel : Nat), Represents l c (p ++ q) → i ≤ j →
    (∀ x ∈ elems (p ++ q), Near seqNoTh x i ∧ Near seqNoTh x j) → q.length ≤ fuel →
    l.findFrom (seqOf i) (seqOf j) fuel (slots l.size c q).head? =
      some (decide (∃ x ∈ elems q, i ≤ x ∧ x ≤ j)) := by
  induction q with
  | nil =>
      intro p fuel _ _ _ _
      cases fuel <;> simp [findFrom]
  | cons r q ih =>
      intro p fuel h hij hnear hfuel
      obtain ⟨fuel, rfl⟩ : ∃ m, fuel = m + 1 := ⟨fuel - 1, by simp at hfuel; omega⟩
      have hr : r ∈ p ++ r :: q := by simp
      have hord := h.holds.ordered
      have hle := hord.le r hr
      obtain ⟨hfsti, hfstj⟩ := hnear _ (hord.fst_mem hr)
      obtain ⟨hsndi, -⟩ := hnear _ (hord.snd_mem hr)
      have hany : ((lastOf seqOf r).any fun last => 0 ≤ seqcmp last (seqOf i)) ↔ r.1 < r.2 ∧ i ≤ r.2 := by
        rw [lastOf]
        split
        · simp [seqcmp_nonneg_iff hsndi, *]
        · simp [*]
      have htest : (seqcmp (seqOf r.1) (seqOf i) = 0 ∨
          (0 < seqcmp (seqOf r.1) (seqOf i) ∧ seqcmp (seqOf r.1) (seqOf j) ≤ 0) ∨
          (seqcmp (seqOf r.1) (seqOf i) < 0 ∧
            (lastOf seqOf r).any fun last => 0 ≤ seqcmp last (seqOf i))) ↔
          ∃ x ∈ Finset.Icc r.1 r.2, i ≤ x ∧ x ≤ j := by
        rw [seqcmp_eq_zero_iff hfsti, seqcmp_pos_iff hfsti, seqcmp_neg_iff hfsti,
          seqcmp_nonpos_iff hfstj, hany]
        constructor
        · intro htest
          refine ⟨max i r.1, ?_⟩
          rw [Finset.mem_Icc]
          omega
        · rintro ⟨x, hx, hix, hxj⟩
          rw [Finset.mem_Icc] at hx
          omega
      have hsplit : (∃ x ∈ elems (r :: q), i ≤ x ∧ x ≤ j) ↔
          (∃ x ∈ Finset.Icc r.1 r.2, i ≤ x ∧ x ≤ j) ∨ ∃ x ∈ elems q, i ≤ x ∧ x ≤ j := by
        simp only [elems_cons, Finset.mem_union, or_and_right, exists_or]
      have hrest := ih (p ++ [r]) fuel (by simpa using h) hij (by simpa using hnear)
        (by simpa using hfuel)
      have hnext := h.next_eq
      rw [slots_cons, List.head?_cons, findFrom, (h.holds.live r hr).1, Option.bind_some,
        (h.holds.live r hr).2, hnext]
      by_cases hin : ∃ x ∈ Finset.Icc r.1 r.2, i ≤ x ∧ x ≤ j
      · rw [if_pos (htest.mpr hin), decide_eq_true (hsplit.mpr (.inl hin))]
      · rw [if_neg (mt htest.mp hin), hrest]
        congr 1
        rw [decide_eq_decide, hsplit, or_iff_right hin]

theorem find (h : Represents l c runs) (hij : i ≤ j)
    (hnear : ∀ x ∈ elems runs, Near seqNoTh x i ∧ Near seqNoTh x j) :
    l.find (seqOf i) (seqOf j) = some (decide (∃ x ∈ elems runs, i ≤ x ∧ x ≤ j)) := by
  rw [RcvLossList.find]
  split
  · rename_i hzero
    obtain rfl := h.length_eq_zero_iff.mp hzero
    simp
  · have hhead : l.head = _ := h.holds.head
    rw [hhead]
    exact findFrom_eq runs [] l.size h hij hnear (h.holds.length_le h.pos)

theorem getFirstLostSeq (h : Represents l c runs) {x : Nat} (hx : x ∈ elems runs)
    (hmin : ∀ y ∈ elems runs, x ≤ y) : l.getFirstLostSeq = some (seqOf x) := by
  cases runs with
  | nil => simp at hx
  | cons f rest =>
      obtain ⟨hhead, hfirst⟩ := h.head_eq
      have hne : l.length ≠ 0 := mt h.length_eq_zero_iff.mp (List.cons_ne_nil f rest)
      have hxf : x = f.1 := Nat.le_antisymm (hmin _ (h.holds.ordered.fst_mem List.mem_cons_self))
        (h.holds.ordered.le_of_mem hx)
      rw [RcvLossList.getFirstLostSeq, if_neg hne, hhead, Option.bind_some, hfirst, hxf]

theorem card_eq (h : Represents l c runs) : l.length = (elems runs).card := by
  rw [h.length, h.holds.ordered.card_elems]

end RcvLossList.Represents

/-! ### Runs -/

/-- The counts behind the numbers an operation is called with. -/
inductive LossOp where
  | insert (i j : Nat)
  | remove (s : Nat)
  | removeRange (i j : Nat)
  deriving DecidableEq

namespace LossOp

def call (l : RcvLossList) : LossOp → Option RcvLossList
  | insert i j => l.insert (seqOf i) (seqOf j)
  | remove s => (l.remove (seqOf s)).map Prod.fst
  | removeRange i j => l.removeRange (seqOf i) (seqOf j)

/-- A new loss is behind all others and in one window with them, and what is removed is near. A range
does not end at the greatest sequence number, and has no loss of that number in it. -/
def Legal (size : Nat) (lost : Finset Nat) : LossOp → Prop
  | insert i j => i ≤ j ∧ j < i + size ∧ ∀ x ∈ lost, x < i ∧ j < x + size
  | remove s => ∀ x ∈ lost, Near seqNoTh x s
  | removeRange i j => i ≤ j ∧ j < i + seqNoTh ∧ seqOf j ≠ maxSeqNo ∧
      (∀ x ∈ lost, i ≤ x → x ≤ j → seqOf x ≠ maxSeqNo) ∧
      ∀ x ∈ lost, Near seqNoTh x i ∧ Near seqNoTh x j

instance decidableLegal (size : Nat) (lost : Finset Nat) : ∀ op, Decidable (Legal size lost op)
  | insert _ _ => inferInstanceAs (Decidable (_ ∧ _ ∧ _))
  | remove s => inferInstanceAs (Decidable (∀ x ∈ lost, Near seqNoTh x s))
  | removeRange _ _ => inferInstanceAs (Decidable (_ ∧ _ ∧ _ ∧ _ ∧ _))

def apply (lost : Finset Nat) : LossOp → Finset Nat
  | insert i j => lost ∪ Finset.Icc i j
  | remove s => lost.erase s
  | removeRange i j => lost \ Finset.Icc i j

end LossOp

def lossStep (size : Nat) (lost : Finset Nat) (op : LossOp) : Option (Finset Nat) :=
  if op.Legal size lost then some (op.apply lost) else none

namespace RcvLossList

variable {size : Nat} {lost lost' : Finset Nat}

/-- The list holds the set, whichever intervals and slots it has for it. -/
def Keeps (l : RcvLossList) (size : Nat) (lost : Finset Nat) : Prop :=
  l.size = size ∧ ∃ c runs, Represents l c runs ∧ elems runs = lost

/-- The list does what is legal, and it holds the set after as it held the set before. -/
theorem Keeps.call {l : RcvLossList} (h : Keeps l size lost) {op : LossOp} (hop : op.Legal size lost) :
    ∃ l', op.call l = some l' ∧ Keeps l' size (op.apply lost) := by
  obtain ⟨rfl, c, runs, hrep, rfl⟩ := h
  cases op with
  | insert i j =>
      obtain ⟨hij, hsize, hbehind⟩ := hop
      obtain ⟨l', c', runs', hcall, hrep', helems, hsize'⟩ := hrep.insert hij hsize hbehind
      exact ⟨l', hcall, hsize', c', runs', hrep', helems⟩
  | remove s =>
      obtain ⟨l', runs', hcall, hrep', helems, hsize'⟩ := hrep.remove hop
      refine ⟨l', ?_, hsize', c, runs', hrep', helems⟩
      rw [LossOp.call, hcall]
      rfl
  | removeRange i j =>
      obtain ⟨hij, hlt, hend, hnone, hnear⟩ := hop
      obtain ⟨l', runs', hcall, hrep', helems, hsize'⟩ := hrep.removeRange hij hlt hend hnear
      refine ⟨l', hcall, hsize', c, runs', hrep', ?_⟩
      rw [helems, LossOp.apply]
      ext x
      simp only [Finset.mem_filter, Finset.mem_sdiff, Finset.mem_Icc]
      refine and_congr_right fun hx => not_congr ⟨fun hin => ⟨hin.1, hin.2.1⟩, fun hin => ?_⟩
      exact ⟨hin.1, hin.2, hnone x hx hin.1 hin.2⟩

theorem Keeps.new (hpos : 0 < size) (hsmall : size ≤ seqNoTh) : Keeps (RcvLossList.new size) size ∅ :=
  ⟨rfl, 0, [], Represents.new hpos hsmall, rfl⟩

theorem keeps_run {ops : List LossOp} {l : RcvLossList} (h : Keeps l size lost)
    (hrun : run (lossStep size) lost ops = some lost') :
    ∃ l', run LossOp.call l ops = some l' ∧ Keeps l' size lost' := by
  refine run_simulates (R := fun lost l => Keeps l size lost) ?_ h (eachStep_true _ _) hrun
  intro lost l op lost₁ hkeeps hstep _
  rw [lossStep] at hstep
  split at hstep
  · rename_i hop
    cases hstep
    exact hkeeps.call hop
  · cases hstep

end RcvLossList

/-- After any legal run from the empty list every answer is that of the set: its size, its least
element, whether a number is in it, and whether a range meets it. -/
theorem loss_list_answers {size : Nat} {ops : List LossOp} {lost : Finset Nat} (hpos : 0 < size)
    (hsmall : size ≤ seqNoTh) (hrun : run (lossStep size) ∅ ops = some lost) :
    ∃ l, run LossOp.call (RcvLossList.new size) ops = some l ∧ l.length = lost.card ∧
      (lost = ∅ → l.getFirstLostSeq = none) ∧
      (∀ x ∈ lost, (∀ y ∈ lost, x ≤ y) → l.getFirstLostSeq = some (seqOf x)) ∧
      (∀ s, (∀ x ∈ lost, Near seqNoTh x s) →
        (l.remove (seqOf s)).map Prod.snd = some (decide (s ∈ lost))) ∧
      ∀ i j, i ≤ j → (∀ x ∈ lost, Near seqNoTh x i ∧ Near seqNoTh x j) →
        l.find (seqOf i) (seqOf j) = some (decide (∃ x ∈ lost, i ≤ x ∧ x ≤ j)) := by
  obtain ⟨l, hl, -, c, runs, h, rfl⟩ := RcvLossList.keeps_run (RcvLossList.Keeps.new hpos hsmall) hrun
  refine ⟨l, hl, h.card_eq, fun hempty => ?_, fun x => h.getFirstLostSeq, fun s hs => ?_, fun i j => h.find⟩
  · rw [RcvLossList.getFirstLostSeq, if_pos (by rw [h.card_eq, hempty]; rfl)]
  · obtain ⟨l', -, hremove, -⟩ := h.remove hs
    rw [hremove]
    rfl

/-- A window around the greatest number, where a loss in the middle goes, the one with the greatest
number by itself, and a range around it. -/
def aroundTheEnd : List LossOp :=
  [.insert (maxSeqNo - 3) (maxSeqNo + 5), .remove (maxSeqNo + 2), .insert (maxSeqNo + 8) (maxSeqNo + 8),
    .remove maxSeqNo, .removeRange (maxSeqNo - 1) (maxSeqNo + 3)]

theorem loss_list_answers_around : ∃ l, run LossOp.call (RcvLossList.new 20) aroundTheEnd = some l ∧
    l.length = 5 ∧ l.getFirstLostSeq = some (maxSeqNo - 3) := by
  have hrun : run (lossStep 20) ∅ aroundTheEnd = some {maxSeqNo - 3, maxSeqNo - 2, maxSeqNo + 4,
      maxSeqNo + 5, maxSeqNo + 8} := by decide +kernel
  obtain ⟨l, hl, hlength, -, hfirst, -⟩ := loss_list_answers (by decide) (by decide) hrun
  refine ⟨l, hl, hlength.trans (by decide +kernel), ?_⟩
  exact hfirst (maxSeqNo - 3) (by decide +kernel) (by decide +kernel)

end FusionFS.Udt
