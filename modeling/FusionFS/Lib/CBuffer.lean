import Mathlib.Data.List.TakeWhile
import Mathlib.Data.List.Infix
import Mathlib.Order.Basic

/-!
# Strings in buffers

Arrays of bytes, with the string that begins at their start and what `strncpy` makes of it. Reading or
writing outside of an array is undefined, `none`.
-/

namespace CBuffer

/-- An array of `n` bytes. -/
abbrev Buffer (n : Nat) := { buf : List UInt8 // buf.length = n }

variable {m n : Nat} {s : List UInt8}

/-- The string in a buffer, if a zero byte ends it. -/
def text (buf : Buffer n) : Option (List UInt8) :=
  if 0 ∈ buf.val then some (buf.val.takeWhile (· != 0)) else none

/-- What `strncpy` copies of at most `count` bytes. -/
def copied (src : Buffer m) (count : Nat) : List UInt8 := (src.val.take count).takeWhile (· != 0)

theorem length_copied_le (src : Buffer m) (count : Nat) : (copied src count).length ≤ count :=
  Nat.le_trans (List.takeWhile_prefix _).length_le (List.length_take_le _ _)

/-- `strncpy(dst, src, count)`. The zero byte is written where there is room for it. -/
def strncpy (dst : Buffer n) (src : Buffer m) (count : Nat) : Option (Buffer n) :=
  if h : count ≤ n ∧ (count ≤ m ∨ (copied src count).length < m) then
    some ⟨copied src count ++ List.replicate (count - (copied src count).length) 0 ++
      dst.val.drop count, by
        have hle := length_copied_le src count
        have hdst := dst.property
        rw [List.length_append, List.length_append, List.length_replicate, List.length_drop]
        omega⟩
  else none

theorem takeWhile_append {l : List UInt8} (h : (0 : UInt8) ∉ s) :
    (s ++ l).takeWhile (· != 0) = s ++ l.takeWhile (· != 0) := by
  apply List.takeWhile_append_of_pos
  intro c hc
  rw [bne_iff_ne]
  exact ne_of_mem_of_not_mem hc h

theorem takeWhile_zero {l : List UInt8} (h : (0 : UInt8) ∉ s) :
    (s ++ 0 :: l).takeWhile (· != 0) = s := by
  rw [takeWhile_append h, List.takeWhile_cons_of_neg (by simp), List.append_nil]

theorem text_eq_some_iff {buf : Buffer n} :
    text buf = some s ↔ 0 ∉ s ∧ ∃ rest, buf.val = s ++ 0 :: rest := by
  unfold text
  constructor
  · intro h
    split at h
    · next hzero =>
      obtain rfl := Option.some.inj h
      refine ⟨fun hmem => by simpa using List.mem_takeWhile_imp hmem, ?_⟩
      have hsplit := List.takeWhile_append_dropWhile (p := (· != (0 : UInt8))) (l := buf.val)
      cases hrest : buf.val.dropWhile (· != 0) with
      | nil =>
          rw [hrest, List.append_nil] at hsplit
          have hall := List.takeWhile_eq_self_iff.mp hsplit 0 hzero
          simp at hall
      | cons c rest =>
          have hc : c = 0 := by
            have hneg := List.head_dropWhile_not (p := (· != (0 : UInt8))) (l := buf.val) (by simp [hrest])
            simpa [hrest] using hneg
          rw [hrest, hc] at hsplit
          exact ⟨rest, hsplit.symm⟩
    · cases h
  · rintro ⟨hnul, rest, heq⟩
    rw [heq, if_pos (by simp), takeWhile_zero hnul]

/-- A string without zero bytes is copied whole, and so is what follows it up to a zero byte. -/
theorem copied_eq {src : Buffer m} {rest : List UInt8} {count : Nat} (hsrc : src.val = s ++ rest)
    (hnul : 0 ∉ s) (hlen : s.length ≤ count) :
    copied src count = s ++ (rest.take (count - s.length)).takeWhile (· != 0) := by
  rw [copied, hsrc, List.take_append, List.take_of_length_le hlen, takeWhile_append hnul]

theorem strncpy_eq (dst : Buffer n) {src : Buffer m} {count : Nat} (hdst : count ≤ n)
    (hsrc : count ≤ m) : ∃ buf, strncpy dst src count = some buf ∧
      buf.val = copied src count ++ List.replicate (count - (copied src count).length) 0 ++
        dst.val.drop count :=
  ⟨_, dif_pos ⟨hdst, Or.inl hsrc⟩, rfl⟩

/-- As many bytes as a string has: no zero byte is written. -/
theorem strncpy_text (dst : Buffer n) {src : Buffer m} {rest : List UInt8}
    (hsrc : src.val = s ++ rest) (hnul : 0 ∉ s) (hlen : s.length ≤ n) :
    ∃ buf, strncpy dst src s.length = some buf ∧ buf.val = s ++ dst.val.drop s.length := by
  have hroom : s.length ≤ m := by
    rw [← src.property, hsrc, List.length_append]
    exact Nat.le_add_right _ _
  obtain ⟨buf, hbuf, hval⟩ := strncpy_eq dst hlen hroom
  refine ⟨buf, hbuf, ?_⟩
  rw [hval, copied_eq hsrc hnul le_rfl]
  simp

end CBuffer
