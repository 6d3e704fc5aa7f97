import Mathlib.Data.Nat.Basic
import Mathlib.Tactic.Ring

/-!
# Integers as they lie in memory

Two's complement, the lowest byte first.
-/

namespace RawInt

/-- The bytes of an integer variable of a given width. -/
def bytesOf : Nat → Int → List UInt8
  | 0, _ => []
  | width + 1, n => UInt8.ofNat (n % 256).toNat :: bytesOf width (n / 256)

def natOf : List UInt8 → Nat
  | [] => 0
  | b :: bs => b.toNat + 256 * natOf bs

/-- The value of an integer variable with these bytes. -/
def intOf (bs : List UInt8) : Int := (natOf bs : Int).bmod (256 ^ bs.length)

@[simp]
theorem length_bytesOf (width : Nat) (n : Int) : (bytesOf width n).length = width := by
  induction width generalizing n with
  | zero => rfl
  | succ width ih => rw [bytesOf, List.length_cons, ih]

theorem emod_mul (n : Int) {m : Int} (hm : 0 < m) :
    n % (256 * m) = n % 256 + 256 * (n / 256 % m) := by
  have hlow := Int.emod_add_mul_ediv n 256
  have hhigh := Int.emod_add_mul_ediv (n / 256) m
  have hpos := Int.emod_nonneg (n / 256) (Int.ne_of_gt hm)
  have hlt := Int.emod_lt_of_pos (n / 256) hm
  have hsum : n = n % 256 + 256 * (n / 256 % m) + 256 * m * (n / 256 / m) := by
    rw [Int.mul_assoc]
    omega
  calc n % (256 * m)
      = (n % 256 + 256 * (n / 256 % m) + 256 * m * (n / 256 / m)) % (256 * m) := by rw [← hsum]
    _ = (n % 256 + 256 * (n / 256 % m)) % (256 * m) := Int.add_mul_emod_self_left ..
    _ = n % 256 + 256 * (n / 256 % m) := by
        apply Int.emod_eq_of_lt
        · omega
        · omega

theorem natOf_bytesOf (width : Nat) (n : Int) :
    (natOf (bytesOf width n) : Int) = n % (256 ^ width : Nat) := by
  induction width generalizing n with
  | zero =>
      change (0 : Int) = n % 1
      omega
  | succ width ih =>
      have hbyte : (UInt8.ofNat (n % 256).toNat).toNat = (n % 256).toNat := by
        rw [UInt8.toNat_ofNat']
        omega
      have hpow : ((256 ^ (width + 1) : Nat) : Int) = 256 * (256 ^ width : Nat) := by
        rw [Nat.pow_succ, Nat.mul_comm]
        rfl
      have hpos : 0 < ((256 ^ width : Nat) : Int) := by
        exact_mod_cast Nat.pow_pos (by decide)
      rw [bytesOf, natOf, hbyte, hpow, emod_mul n hpos, ← ih]
      omega

theorem intOf_bytesOf {width : Nat} {n : Int} (hlow : -(256 ^ width : Nat) ≤ n * 2)
    (hhigh : n * 2 < (256 ^ width : Nat)) : intOf (bytesOf width n) = n := by
  rw [intOf, length_bytesOf, natOf_bytesOf, Int.emod_bmod]
  exact Int.bmod_eq_of_le_mul_two hlow hhigh

theorem natOf_lt (bs : List UInt8) : natOf bs < 256 ^ bs.length := by
  induction bs with
  | nil => exact Nat.one_pos
  | cons b bs ih =>
      have hb := b.toNat_lt
      rw [natOf, List.length_cons, Nat.pow_succ]
      omega

theorem natOf_concat (bs : List UInt8) (b : UInt8) :
    natOf (bs ++ [b]) = natOf bs + b.toNat * 256 ^ bs.length := by
  induction bs with
  | nil => simp [natOf]
  | cons c bs ih =>
      rw [List.cons_append, natOf, ih, natOf, List.length_cons, Nat.pow_succ]
      ring

/-- The last byte has the sign. -/
theorem intOf_concat (bs : List UInt8) (b : UInt8) :
    intOf (bs ++ [b]) = natOf bs + (b.toNat : Int).bmod 256 * (256 ^ bs.length : Nat) := by
  have hlt := natOf_lt bs
  have hpow : 256 ^ (bs ++ [b]).length = 256 * 256 ^ bs.length := by
    rw [List.length_append, List.length_singleton, Nat.pow_succ, Nat.mul_comm]
  obtain ⟨k, hk⟩ := Int.dvd_self_sub_bmod (x := (b.toNat : Int)) (m := 256)
  have hlow : -128 ≤ (b.toNat : Int).bmod 256 := Int.le_bmod (by decide)
  have hhigh : (b.toNat : Int).bmod 256 < 128 := Int.bmod_lt (by decide)
  rw [intOf, hpow, natOf_concat]
  generalize 256 ^ bs.length = m at *
  generalize (b.toNat : Int).bmod 256 = s at *
  have hsum : ((natOf bs + b.toNat * m : Nat) : Int)
      = natOf bs + s * m + (256 * m : Nat) * k := by
    have hb : (b.toNat : Int) = s + 256 * k := by omega
    push_cast
    rw [hb]
    ring
  have hle : s * m ≤ 127 * m := Int.mul_le_mul_of_nonneg_right (by omega) (by omega)
  have hge : -128 * m ≤ s * m := Int.mul_le_mul_of_nonneg_right hlow (by omega)
  rw [hsum, Int.add_mul_bmod_self_left, Int.bmod_eq_of_le_mul_two]
  · omega
  · omega

theorem intOf_concat_neg (bs : List UInt8) : intOf (bs ++ [0x80]) < 0 := by
  have hlt := natOf_lt bs
  have hbyte : ((0x80 : UInt8).toNat : Int).bmod 256 = -128 := by decide
  rw [intOf_concat, hbyte]
  generalize 256 ^ bs.length = m at *
  omega

theorem intOf_concat_pos (bs : List UInt8) : 0 < intOf (bs ++ [0x7f]) := by
  have hpos : 0 < 256 ^ bs.length := Nat.pow_pos (by decide)
  have hbyte : ((0x7f : UInt8).toNat : Int).bmod 256 = 127 := by decide
  rw [intOf_concat, hbyte]
  generalize 256 ^ bs.length = m at *
  omega

end RawInt
