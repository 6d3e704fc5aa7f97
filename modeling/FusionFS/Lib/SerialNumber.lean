import Mathlib.Algebra.Order.Ring.Int

/-!
# Serial numbers

Numbers from `0` to `max` that start over, for counters that do not. Two of them are compared by the
shorter way around; that is the order of the counters as long as these are closer than a threshold of
half the numbers.
-/

namespace SerialNumber

variable (max th : Nat)

/-- The serial number of the count `i`. -/
def num (i : Nat) : Nat := i % (max + 1)

def cmp (a b : Nat) : Int := if ((a : Int) - b).natAbs < th then (a : Int) - b else (b : Int) - a

/-- The length from `a` to `b`, both counted. -/
def len (a b : Nat) : Int := if a ≤ b then (b : Int) - a + 1 else (b : Int) - a + max + 2

/-- The offset from `a` to `b`. -/
def off (a b : Nat) : Int :=
  if ((a : Int) - b).natAbs < th then (b : Int) - a
  else if a < b then (b : Int) - a - max - 1
  else (b : Int) - a + max + 1

def inc (a : Nat) : Nat := if a = max then 0 else a + 1

def dec (a : Nat) : Nat := if a = 0 then max else a - 1

/-- Two counts are closer than the threshold. -/
def Near (i j : Nat) : Prop := i < j + th ∧ j < i + th

variable {max th} {i j : Nat}

instance : Decidable (Near th i j) := inferInstanceAs (Decidable (_ ∧ _))

theorem Near.symm (h : Near th i j) : Near th j i := ⟨h.2, h.1⟩

theorem num_le : num max i ≤ max := Nat.lt_succ_iff.mp (Nat.mod_lt i (Nat.succ_pos max))

theorem num_add {d : Nat} (hd : d ≤ max) :
    num max (i + d) = if num max i + d ≤ max then num max i + d else num max i + d - (max + 1) := by
  rw [num, Nat.add_mod_eq_ite, Nat.mod_eq_of_lt (show d < max + 1 by omega), ← num]
  by_cases hle : num max i + d ≤ max
  · rw [if_neg (by omega), if_pos hle]
  · rw [if_pos (by omega), if_neg hle]

/-- The numbers of two near counts are as far apart as the counts, or go around once. -/
theorem num_cases (hth : 2 * th ≤ max + 1) (hle : i ≤ j) (hnear : j < i + th) :
    (num max j : Int) = num max i + (j - i) ∨
      (num max j : Int) = num max i + (j - i) - (max + 1) := by
  have hadd := num_add (i := i) (show j - i ≤ max by omega)
  rw [show i + (j - i) = j by omega] at hadd
  split at hadd <;> omega

theorem cmp_eq (hth : 2 * th ≤ max + 1) (h : Near th i j) :
    (j < i → 0 < cmp th (num max i) (num max j)) ∧ (i = j → cmp th (num max i) (num max j) = 0) ∧
      (i < j → cmp th (num max i) (num max j) < 0) := by
  obtain ⟨hij, hji⟩ := h
  refine ⟨fun hlt => ?_, ?_, fun hlt => ?_⟩
  · have hj := num_cases hth hlt.le (by omega)
    rw [cmp]
    split <;> omega
  · rintro rfl
    rw [cmp]
    split <;> omega
  · have hj := num_cases hth hlt.le (by omega)
    rw [cmp]
    split <;> omega

theorem cmp_pos_iff (hth : 2 * th ≤ max + 1) (h : Near th i j) :
    0 < cmp th (num max i) (num max j) ↔ j < i := by
  obtain ⟨hgt, heq, hlt⟩ := cmp_eq hth h
  rcases lt_trichotomy i j with hij | hij | hij
  · have := hlt hij
    omega
  · have := heq hij
    omega
  · have := hgt hij
    omega

theorem cmp_neg_iff (hth : 2 * th ≤ max + 1) (h : Near th i j) :
    cmp th (num max i) (num max j) < 0 ↔ i < j := by
  obtain ⟨hgt, heq, hlt⟩ := cmp_eq hth h
  rcases lt_trichotomy i j with hij | hij | hij
  · have := hlt hij
    omega
  · have := heq hij
    omega
  · have := hgt hij
    omega

theorem cmp_nonneg_iff (hth : 2 * th ≤ max + 1) (h : Near th i j) :
    0 ≤ cmp th (num max i) (num max j) ↔ j ≤ i := by
  rw [← not_lt, cmp_neg_iff hth h, not_lt]

theorem cmp_nonpos_iff (hth : 2 * th ≤ max + 1) (h : Near th i j) :
    cmp th (num max i) (num max j) ≤ 0 ↔ i ≤ j := by
  rw [← not_lt, cmp_pos_iff hth h, not_lt]

theorem num_inj (hth : 2 * th ≤ max + 1) (h : Near th i j) : num max i = num max j ↔ i = j := by
  constructor
  · intro heq
    rcases Nat.le_total i j with hle | hle
    · rcases num_cases hth hle h.2 with hj | hj
      · omega
      · have := h.2
        omega
    · rcases num_cases hth hle h.1 with hj | hj
      · omega
      · have := h.1
        omega
  · exact congrArg _

theorem cmp_eq_zero_iff (hth : 2 * th ≤ max + 1) (h : Near th i j) :
    cmp th (num max i) (num max j) = 0 ↔ i = j := by
  constructor
  · intro hzero
    exact Nat.le_antisymm ((cmp_nonpos_iff hth h).mp hzero.le) ((cmp_nonneg_iff hth h).mp hzero.ge)
  · exact (cmp_eq hth h).2.1

theorem off_eq (hth : 2 * th ≤ max + 1) (h : Near th i j) :
    off max th (num max i) (num max j) = (j : Int) - i := by
  obtain ⟨hij, hji⟩ := h
  rcases Nat.le_total i j with hle | hle
  · have hj := num_cases hth hle hji
    rw [off]
    split
    · omega
    · split <;> omega
  · have hi := num_cases hth hle hij
    rw [off]
    split
    · omega
    · split <;> omega

theorem len_eq (hle : i ≤ j) (hlt : j - i ≤ max) :
    len max (num max i) (num max j) = (j : Int) - i + 1 := by
  have hadd := num_add (i := i) hlt
  have hi : num max i ≤ max := num_le
  rw [show i + (j - i) = j by omega] at hadd
  rw [len]
  split at hadd <;> split <;> omega

theorem inc_eq : inc max (num max i) = num max (i + 1) := by
  have hi : num max i ≤ max := num_le
  have hmod : num max (i + 1) = _ := Nat.add_mod_eq_ite
  rw [← num] at hmod
  rw [inc, hmod]
  by_cases hmax : max = 0
  · subst hmax
    have h0 : num 0 i = 0 := by omega
    rw [h0]
    decide
  · rw [Nat.mod_eq_of_lt (show 1 < max + 1 by omega)]
    by_cases heq : num max i = max
    · rw [if_pos heq, if_pos (by omega)]
      omega
    · rw [if_neg heq, if_neg (by omega)]

theorem dec_eq : dec max (num max (i + 1)) = num max i := by
  have hi : num max i ≤ max := num_le
  rw [← inc_eq, inc, dec]
  by_cases heq : num max i = max
  · rw [if_pos heq, if_pos rfl, heq]
  · rw [if_neg heq, if_neg (by omega), Nat.add_sub_cancel]

end SerialNumber
