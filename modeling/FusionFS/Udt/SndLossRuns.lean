import FusionFS.Udt.SndLossRemoval
import Mathlib.Data.Finset.Max

/-!
# What the loss list of a sender answers

The list gives back what a set would: an insertion counts the numbers that were not in it, and the
number to send again is always the least.
-/

namespace FusionFS.Udt

open IntervalSet IntervalSlots SerialNumber SlotChain Transition

namespace SndLossList

variable {size i j s : Nat} {lost lost' : Finset Nat} {l : SndLossList}

theorem Represents.new (hpos : 0 < size) (hsmall : size ≤ seqNoTh) :
    Represents (SndLossList.new size) 0 [] where
  pos := hpos
  small := hsmall
  holds := Holds.of_nil (fun _ => ⟨rfl, rfl⟩) rfl
  length := rfl
  lastInsert _ hk := absurd hk (Option.some_ne_none _).symm

/-- The list holds the set, whichever intervals and slots it has for it. -/
def Keeps (l : SndLossList) (size : Nat) (lost : Finset Nat) : Prop :=
  l.size = size ∧ ∃ c runs, Represents l c runs ∧ elems runs = lost

namespace Keeps

theorem new (hpos : 0 < size) (hsmall : size ≤ seqNoTh) : Keeps (SndLossList.new size) size ∅ :=
  ⟨rfl, 0, [], Represents.new hpos hsmall, rfl⟩

theorem length_eq (h : Keeps l size lost) : l.length = lost.card := by
  obtain ⟨-, c, runs, hrep, rfl⟩ := h
  rw [hrep.length, hrep.holds.ordered.card_elems]

theorem insert (h : Keeps l size lost) (hij : i ≤ j)
    (hspan : ∀ x ∈ lost ∪ Finset.Icc i j, ∀ y ∈ lost ∪ Finset.Icc i j, y < x + size) :
    ∃ l', l.insert (seqOf i) (seqOf j) = some (l', ((Finset.Icc i j \ lost).card : Int)) ∧
      Keeps l' size (lost ∪ Finset.Icc i j) := by
  obtain ⟨rfl, c, runs, hrep, rfl⟩ := h
  obtain ⟨l', c', runs', hinsert, hrep', helems, hsize⟩ := hrep.insert hij hspan
  have hcard := Finset.card_sdiff_add_card (Finset.Icc i j) (elems runs)
  rw [Finset.union_comm] at hcard
  refine ⟨l', hinsert.trans ?_, hsize, c', runs', hrep', helems⟩
  congr 2
  omega

theorem remove (h : Keeps l size lost) (hnear : ∀ x ∈ lost, Near seqNoTh x s) :
    ∃ l', l.remove (seqOf s) = some l' ∧ Keeps l' size (lost.filter (s < ·)) := by
  obtain ⟨rfl, c, runs, hrep, rfl⟩ := h
  obtain ⟨l', runs', hremove, hrep', helems, hsize⟩ := hrep.remove hnear
  exact ⟨l', hremove, hsize, c, runs', hrep', helems⟩

/-- The number to send again is the least. -/
theorem getLostSeq (h : Keeps l size lost) :
    (lost = ∅ ∧ l.getLostSeq = some (l, none)) ∨
      ∃ x l', x ∈ lost ∧ (∀ y ∈ lost, x ≤ y) ∧ l.getLostSeq = some (l', some (seqOf x)) ∧
        Keeps l' size (lost.erase x) := by
  obtain ⟨rfl, c, runs, hrep, rfl⟩ := h
  obtain ⟨rfl, hget⟩ | ⟨x, l', runs', hx, hmin, hget, hrep', helems, hsize⟩ := hrep.getLostSeq
  · exact .inl ⟨rfl, hget⟩
  · exact .inr ⟨x, l', hx, hmin, hget, hsize, c, runs', hrep', helems⟩

end Keeps

end SndLossList

/-! ### Runs -/

/-- The counts behind the numbers a sender calls its loss list with. -/
inductive SndLossOp where
  | insert (i j : Nat)
  | remove (s : Nat)
  | getLostSeq
  deriving DecidableEq

/-- What an operation gives back. -/
inductive SndLossAnswer where
  | inserted (num : Int)
  | removed
  | lostSeq (seqno : Option Nat)
  deriving DecidableEq

namespace SndLossOp

/-- The list after an operation, and its answer. -/
def call (l : SndLossList) : SndLossOp → Option (SndLossList × SndLossAnswer)
  | insert i j => (l.insert (seqOf i) (seqOf j)).map fun out => (out.1, .inserted out.2)
  | remove s => (l.remove (seqOf s)).map fun l => (l, .removed)
  | getLostSeq => l.getLostSeq.map fun out => (out.1, .lostSeq out.2)

/-- All losses are in one window, and what is removed is near. -/
def Legal (size : Nat) (lost : Finset Nat) : SndLossOp → Prop
  | insert i j => i ≤ j ∧ ∀ x ∈ lost ∪ Finset.Icc i j, ∀ y ∈ lost ∪ Finset.Icc i j, y < x + size
  | remove s => ∀ x ∈ lost, Near seqNoTh x s
  | getLostSeq => True

instance decidableLegal (size : Nat) (lost : Finset Nat) : ∀ op, Decidable (Legal size lost op)
  | insert i j => inferInstanceAs (Decidable (i ≤ j ∧ ∀ x ∈ lost ∪ Finset.Icc i j,
      ∀ y ∈ lost ∪ Finset.Icc i j, y < x + size))
  | remove s => inferInstanceAs (Decidable (∀ x ∈ lost, Near seqNoTh x s))
  | getLostSeq => .isTrue trivial

/-- What a set of counts answers. -/
def apply (lost : Finset Nat) : SndLossOp → Finset Nat × SndLossAnswer
  | insert i j => (lost ∪ Finset.Icc i j, .inserted (Finset.Icc i j \ lost).card)
  | remove s => (lost.filter (s < ·), .removed)
  | getLostSeq =>
      if h : lost.Nonempty then (lost.erase (lost.min' h), .lostSeq (some (seqOf (lost.min' h))))
      else (lost, .lostSeq none)

end SndLossOp

def sndLossStep (size : Nat) (lost : Finset Nat) (op : SndLossOp) : Option (Finset Nat × SndLossAnswer) :=
  if op.Legal size lost then some (op.apply lost) else none

/-- One operation: the list answers as the set, and holds it after as before. -/
theorem SndLossList.Keeps.call {l : SndLossList} {size : Nat} {lost : Finset Nat}
    (h : Keeps l size lost) {op : SndLossOp} (hop : op.Legal size lost) :
    ∃ l', op.call l = some (l', (op.apply lost).2) ∧ Keeps l' size (op.apply lost).1 := by
  cases op with
  | insert i j =>
      obtain ⟨l', hinsert, hkeeps⟩ := h.insert hop.1 hop.2
      refine ⟨l', ?_, hkeeps⟩
      rw [SndLossOp.call, hinsert]
      rfl
  | remove s =>
      obtain ⟨l', hremove, hkeeps⟩ := h.remove hop
      refine ⟨l', ?_, hkeeps⟩
      rw [SndLossOp.call, hremove]
      rfl
  | getLostSeq =>
      rw [SndLossOp.call, SndLossOp.apply]
      obtain ⟨rfl, hget⟩ | ⟨x, l', hx, hmin, hget, hkeeps⟩ := h.getLostSeq
      · rw [dif_neg Finset.not_nonempty_empty, hget]
        exact ⟨l, rfl, h⟩
      · have hne : lost.Nonempty := ⟨x, hx⟩
        have hleast : lost.min' hne = x :=
          Nat.le_antisymm (Finset.min'_le _ _ hx) (hmin _ (Finset.min'_mem _ _))
        rw [dif_pos hne, hget, hleast]
        exact ⟨l', rfl, hkeeps⟩

/-- After any legal run from the empty list the answers were those of the set, whichever order its
losses came in, and the length is the size of the set. -/
theorem snd_loss_list_answers {size : Nat} {ops : List SndLossOp} {lost : Finset Nat}
    {answers : List SndLossAnswer} (hpos : 0 < size) (hsmall : size ≤ seqNoTh)
    (hrun : runOut (sndLossStep size) ∅ ops = some (lost, answers)) :
    ∃ l, runOut (fun l (op : SndLossOp) => op.call l) (SndLossList.new size) ops = some (l, answers) ∧
      l.length = lost.card := by
  have hstep : ∀ lost l (op : SndLossOp) lost' answer, SndLossList.Keeps l size lost →
      sndLossStep size lost op = some (lost', answer) →
      ∃ l', op.call l = some (l', answer) ∧ l'.Keeps size lost' := by
    intro lost l op lost' answer h hcall
    rw [sndLossStep] at hcall
    split at hcall
    · rename_i hop
      obtain ⟨l', hl', h'⟩ := h.call hop
      rw [Option.some.inj hcall] at hl' h'
      exact ⟨l', hl', h'⟩
    · cases hcall
  obtain ⟨l, hl, hkeeps⟩ := runOut_simulates hstep (SndLossList.Keeps.new hpos hsmall) hrun
  exact ⟨l, hl, hkeeps.length_eq⟩

/-- Losses around the greatest number, in no order, that join to one interval, are sent again in part
and acknowledged in part. -/
def outOfOrder : List SndLossOp :=
  [.insert (maxSeqNo + 3) (maxSeqNo + 5), .insert (maxSeqNo - 2) (maxSeqNo - 1), .getLostSeq,
    .insert (maxSeqNo - 1) (maxSeqNo + 4), .insert (maxSeqNo + 8) (maxSeqNo + 8), .remove maxSeqNo,
    .getLostSeq]

theorem snd_loss_list_answers_out_of_order :
    ∃ l, runOut (fun l (op : SndLossOp) => op.call l) (SndLossList.new 20) outOfOrder = some (l,
        [.inserted 3, .inserted 2, .lostSeq (some (maxSeqNo - 2)), .inserted 3, .inserted 1, .removed,
          .lostSeq (some 0)]) ∧ l.length = 5 := by
  have hrun : runOut (sndLossStep 20) ∅ outOfOrder = some
      ({maxSeqNo + 2, maxSeqNo + 3, maxSeqNo + 4, maxSeqNo + 5, maxSeqNo + 8},
        [.inserted 3, .inserted 2, .lostSeq (some (maxSeqNo - 2)), .inserted 3, .inserted 1, .removed,
          .lostSeq (some 0)]) := by decide +kernel
  obtain ⟨l, hl, hlength⟩ := snd_loss_list_answers (by decide) (by decide) hrun
  exact ⟨l, hl, hlength.trans (by decide +kernel)⟩

end FusionFS.Udt
