import FusionFS.Lib.SerialNumber
import FusionFS.Lib.SlotChain

/-!
# Sequence numbers of packets

`CSeqNo` of the transport. Packets are counted without end, and a packet carries 31 bits of its count.
-/

namespace FusionFS.Udt

open SerialNumber

/-- `m_iMaxSeqNo`. -/
def maxSeqNo : Nat := 0x7FFFFFFF

/-- `m_iSeqNoTH`. -/
def seqNoTh : Nat := 0x3FFFFFFF

def seqcmp (seq1 seq2 : Nat) : Int := cmp seqNoTh seq1 seq2

def seqlen (seq1 seq2 : Nat) : Int := len maxSeqNo seq1 seq2

def seqoff (seq1 seq2 : Nat) : Int := off maxSeqNo seqNoTh seq1 seq2

def incseq (seq : Nat) : Nat := inc maxSeqNo seq

def decseq (seq : Nat) : Nat := dec maxSeqNo seq

/-- The bit that marks the first of two numbers in a loss report as the start of an interval. -/
def rangeBit : Nat := 0x80000000

/-- The sequence number of the packet with a count. -/
def seqOf (i : Nat) : Nat := num maxSeqNo i

variable {i j : Nat}

theorem two_mul_seqNoTh_le : 2 * seqNoTh ≤ maxSeqNo + 1 := by decide

theorem seqNoTh_le : seqNoTh ≤ maxSeqNo := by decide

theorem seqcmp_pos_iff (h : Near seqNoTh i j) : 0 < seqcmp (seqOf i) (seqOf j) ↔ j < i :=
  cmp_pos_iff two_mul_seqNoTh_le h

theorem seqcmp_neg_iff (h : Near seqNoTh i j) : seqcmp (seqOf i) (seqOf j) < 0 ↔ i < j :=
  cmp_neg_iff two_mul_seqNoTh_le h

theorem seqcmp_nonneg_iff (h : Near seqNoTh i j) : 0 ≤ seqcmp (seqOf i) (seqOf j) ↔ j ≤ i :=
  cmp_nonneg_iff two_mul_seqNoTh_le h

theorem seqcmp_nonpos_iff (h : Near seqNoTh i j) : seqcmp (seqOf i) (seqOf j) ≤ 0 ↔ i ≤ j :=
  cmp_nonpos_iff two_mul_seqNoTh_le h

theorem seqcmp_eq_zero_iff (h : Near seqNoTh i j) : seqcmp (seqOf i) (seqOf j) = 0 ↔ i = j :=
  cmp_eq_zero_iff two_mul_seqNoTh_le h

theorem seqOf_inj (h : Near seqNoTh i j) : seqOf i = seqOf j ↔ i = j :=
  num_inj two_mul_seqNoTh_le h

theorem seqoff_eq (h : Near seqNoTh i j) : seqoff (seqOf i) (seqOf j) = (j : Int) - i :=
  off_eq two_mul_seqNoTh_le h

theorem seqlen_eq (hle : i ≤ j) (hlt : j < i + seqNoTh) :
    seqlen (seqOf i) (seqOf j) = (j : Int) - i + 1 := by
  have := seqNoTh_le
  exact len_eq hle (by omega)

@[simp]
theorem incseq_seqOf : incseq (seqOf i) = seqOf (i + 1) := inc_eq

@[simp]
theorem decseq_seqOf : decseq (seqOf (i + 1)) = seqOf i := dec_eq

theorem seqOf_le : seqOf i ≤ maxSeqNo := num_le

theorem seqOf_add {d : Nat} (hd : d ≤ maxSeqNo) : seqOf (i + d) =
    if seqOf i + d ≤ maxSeqNo then seqOf i + d else seqOf i + d - (maxSeqNo + 1) := num_add hd

/-- Numbers in a row, as long as they do not start over. -/
theorem map_seqOf_range' {n : Nat} (h : seqOf i + n ≤ maxSeqNo + 1) :
    (List.range' i n).map seqOf = List.range' (seqOf i) n := by
  apply List.ext_getElem (by simp)
  intro k hk hk'
  rw [List.length_range'] at hk'
  rw [List.getElem_map, List.getElem_range', List.getElem_range', Nat.one_mul, seqOf_add (by omega),
    if_pos (by omega)]

theorem decseq_eq (hi : 0 < i) : decseq (seqOf i) = seqOf (i - 1) := by
  obtain ⟨i, rfl⟩ : ∃ j, i = j + 1 := ⟨i - 1, by omega⟩
  exact decseq_seqOf

theorem pos_of_seqOf_pos (h : 0 < seqOf i) : 0 < i := by
  rcases Nat.eq_zero_or_pos i with rfl | hi
  · simp [seqOf, num] at h
  · exact hi

theorem seqOf_pred (h : 0 < seqOf i) : seqOf i - 1 = seqOf (i - 1) := by
  rw [← decseq_eq (pos_of_seqOf_pos h), decseq, dec, if_neg h.ne']

/-- `x % size` of C, as an index: there is no slot below zero. -/
def index (x : Int) (size : Nat) : Option Nat :=
  if Int.tmod x size < 0 then none else some (Int.tmod x size).toNat

theorem index_natCast (x size : Nat) : index x size = some (x % size) := by
  rw [index, Int.tmod_eq_emod_of_nonneg (Int.natCast_nonneg x), ← Int.natCast_mod,
    if_neg (by omega), Int.toNat_natCast]

/-- The slot of a count, from that of an earlier one. -/
theorem index_seqoff {n c : Nat} (hle : i ≤ j) (hnear : j < i + seqNoTh) :
    index (SlotChain.slot n c i + seqoff (seqOf i) (seqOf j)) n = some (SlotChain.slot n c j) := by
  rw [seqoff_eq ⟨by omega, hnear⟩, ← Int.ofNat_sub hle, ← Int.natCast_add, index_natCast,
    SlotChain.slot_add, show i + (j - i) = j by omega]

theorem index_seqoff_ahead {n c : Nat} (hle : i ≤ j) (hnear : j < i + seqNoTh) :
    index (SlotChain.slot n c i + seqoff (seqOf i) (seqOf j) + n) n = some (SlotChain.slot n c j) := by
  rw [seqoff_eq ⟨by omega, hnear⟩, show (SlotChain.slot n c i : Int) + (j - i) + n =
    ((SlotChain.slot n c i + (j - i) + n : Nat) : Int) by omega, index_natCast, Nat.add_mod_right,
    SlotChain.slot_add, show i + (j - i) = j by omega]

/-- The slot of a count, from that of one that may be earlier or later. -/
theorem index_seqoff_add {n c : Nat} (hij : i < j + n) (hji : j < i + n) (hn : n ≤ seqNoTh) :
    index (SlotChain.slot n c i + seqoff (seqOf i) (seqOf j) + n) n = some (SlotChain.slot n c j) := by
  rw [seqoff_eq ⟨by omega, by omega⟩]
  rcases Nat.le_total i j with hle | hle
  · rw [← seqoff_eq ⟨by omega, by omega⟩]
    exact index_seqoff_ahead hle (by omega)
  · obtain ⟨d, rfl⟩ : ∃ d, i = j + d := ⟨i - j, by omega⟩
    rw [show (SlotChain.slot n c (j + d) : Int) + (j - (j + d : Nat)) + n =
      ((SlotChain.slot n c (j + d) + n - d : Nat) : Int) by omega, index_natCast,
      SlotChain.slot_sub (by omega)]

end FusionFS.Udt
