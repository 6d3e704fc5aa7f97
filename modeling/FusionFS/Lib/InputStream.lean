import Mathlib.Algebra.Order.Ring.Int
import Mathlib.Data.List.TakeWhile

/-!
# Formatted input

`std::istream` as the operators `>>` for strings and for `int` use it: what is left to be read, and the
two bits that say that the end was seen and that a read has failed.
-/

namespace InputStream

structure IStream where
  rest : List UInt8
  eof : Bool
  fail : Bool
  deriving DecidableEq

def isSpace (c : UInt8) : Bool := c = 32 || (9 ≤ c && c ≤ 13)

def isDigit (c : UInt8) : Bool := 48 ≤ c && c ≤ 57

def opened (content : List UInt8) : IStream := ⟨content, false, false⟩

/-- The sentry: a stream that is not good fails, and so does one with nothing but white space left. -/
def sentry (s : IStream) : Option (List UInt8) × IStream :=
  if s.eof || s.fail then (none, { s with fail := true })
  else
    match s.rest.dropWhile isSpace with
    | [] => (none, ⟨[], true, true⟩)
    | c :: rest => (some (c :: rest), s)

/-- `in >> str`. A string that is not read keeps its contents. -/
def getString (s : IStream) (str : List UInt8) : List UInt8 × IStream :=
  match sentry s with
  | (none, s) => (str, s)
  | (some data, _) =>
      let rest := data.dropWhile fun c => !isSpace c
      (data.takeWhile fun c => !isSpace c, ⟨rest, rest.isEmpty, false⟩)

def decimal (digits : List UInt8) : Nat := digits.foldl (fun n c => 10 * n + (c.toNat - 48)) 0

/-- The digits behind an optional sign. -/
def splitSign : List UInt8 → Bool × List UInt8
  | 45 :: data => (true, data)
  | 43 :: data => (false, data)
  | data => (false, data)

/-- `in >> n` for an `int`. Without a digit the value is 0, and out of range it is the nearest one. -/
def getInt (s : IStream) (n : Int) : Int × IStream :=
  match sentry s with
  | (none, s) => (n, s)
  | (some data, _) =>
      let (negative, data) := splitSign data
      let digits := data.takeWhile isDigit
      let rest := data.dropWhile isDigit
      let value : Int := if negative then -decimal digits else decimal digits
      if digits = [] then (0, ⟨rest, rest.isEmpty, true⟩)
      else if value < -2 ^ 31 then (-2 ^ 31, ⟨rest, rest.isEmpty, true⟩)
      else if 2 ^ 31 ≤ value then (2 ^ 31 - 1, ⟨rest, rest.isEmpty, true⟩)
      else (value, ⟨rest, rest.isEmpty, false⟩)

/-! ### Reading what is there -/

section Reading

variable {gap word rest : List UInt8}

def Spaces (gap : List UInt8) : Prop := ∀ c ∈ gap, isSpace c = true

theorem sentry_of_eof {s : IStream} (h : s.eof = true) : sentry s = (none, { s with fail := true }) := by
  simp [sentry, h]

theorem sentry_spaces (hgap : Spaces gap) : sentry (opened gap) = (none, ⟨[], true, true⟩) := by
  have hnone : gap.dropWhile isSpace = [] := List.dropWhile_eq_nil_iff.mpr hgap
  simp [sentry, opened, hnone]

variable (rest) in
theorem sentry_word {c : UInt8} (hgap : Spaces gap) (hc : isSpace c = false) :
    sentry (opened (gap ++ c :: rest)) = (some (c :: rest), opened (gap ++ c :: rest)) := by
  have hdrop : (gap ++ c :: rest).dropWhile isSpace = c :: rest := by
    rw [List.dropWhile_append_of_pos hgap, List.dropWhile_cons_of_neg (by simp [hc])]
  simp [sentry, opened, hdrop]

/-- The longest front part with a property, where the property ends. -/
theorem split_span (p : UInt8 → Bool) (hword : ∀ c ∈ word, p c = true)
    (hrest : ∀ c ∈ rest.head?, p c = false) :
    (word ++ rest).takeWhile p = word ∧ (word ++ rest).dropWhile p = rest := by
  rw [List.takeWhile_append_of_pos hword, List.dropWhile_append_of_pos hword]
  cases rest with
  | nil => simp
  | cons c rest =>
      have hc : p c = false := hrest c rfl
      rw [List.takeWhile_cons_of_neg (by simp [hc]), List.dropWhile_cons_of_neg (by simp [hc])]
      simp

theorem getString_word (str : List UInt8) (hgap : Spaces gap) (hne : word ≠ [])
    (hword : ∀ c ∈ word, isSpace c = false) (hrest : ∀ c ∈ rest.head?, isSpace c = true) :
    getString (opened (gap ++ (word ++ rest))) str = (word, ⟨rest, rest.isEmpty, false⟩) := by
  obtain ⟨htake, hdrop⟩ := @split_span word rest (fun c => !isSpace c)
    (fun c hc => by simp [hword c hc]) (fun c hc => by simp [hrest c hc])
  obtain ⟨c, cs, rfl⟩ := List.exists_cons_of_ne_nil hne
  have hsentry : sentry (opened (gap ++ (c :: cs ++ rest))) = _ :=
    sentry_word (cs ++ rest) hgap (hword c List.mem_cons_self)
  rw [getString, hsentry]
  rw [List.cons_append] at htake hdrop
  simp only [htake, hdrop]

theorem isSpace_of_isDigit {c : UInt8} (h : isDigit c = true) : isSpace c = false := by
  unfold isDigit at h
  unfold isSpace
  simp only [Bool.and_eq_true, decide_eq_true_eq, UInt8.le_iff_toNat_le] at h
  simp only [Bool.or_eq_false_iff, decide_eq_false_iff_not, Bool.and_eq_false_iff,
    UInt8.le_iff_toNat_le, ← UInt8.toNat_inj]
  have hspace : (32 : UInt8).toNat = 32 := rfl
  have hcr : (13 : UInt8).toNat = 13 := rfl
  have hzero : (48 : UInt8).toNat = 48 := rfl
  omega

theorem isDigit_of_isSpace {c : UInt8} (h : isSpace c = true) : isDigit c = false := by
  by_contra hdigit
  rw [isSpace_of_isDigit (by simpa using hdigit)] at h
  cases h

theorem getInt_digits (n : Int) (hgap : Spaces gap) (hne : word ≠ [])
    (hword : ∀ c ∈ word, isDigit c = true) (hlt : decimal word < 2 ^ 31)
    (hrest : ∀ c ∈ rest.head?, isSpace c = true) :
    getInt (opened (gap ++ (word ++ rest))) n
      = ((decimal word : Int), ⟨rest, rest.isEmpty, false⟩) := by
  obtain ⟨htake, hdrop⟩ := split_span isDigit hword
    (fun c hc => isDigit_of_isSpace (hrest c hc))
  obtain ⟨c, cs, rfl⟩ := List.exists_cons_of_ne_nil hne
  have hc : isDigit c = true := hword c List.mem_cons_self
  have hsentry : sentry (opened (gap ++ (c :: cs ++ rest))) = _ :=
    sentry_word (cs ++ rest) hgap (isSpace_of_isDigit hc)
  have hsign : splitSign (c :: (cs ++ rest)) = (false, c :: (cs ++ rest)) := by
    unfold splitSign
    split
    · next heq => cases heq; cases hc
    · next heq => cases heq; cases hc
    · rfl
  rw [List.cons_append] at htake hdrop
  rw [getInt, hsentry]
  simp only [hsign, htake, hdrop, Bool.false_eq_true, if_false]
  rw [if_neg (List.cons_ne_nil c cs), if_neg (by omega), if_neg (by omega)]

end Reading

end InputStream
