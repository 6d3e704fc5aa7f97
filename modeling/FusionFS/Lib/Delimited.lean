import Mathlib.Data.List.Basic
import Mathlib.Data.List.Infix

/-!
# Delimited lists and substring search

A list of words is stored as one word in which every element stands between two separators. Looking
an element up is then a search for the element with a separator on either side, and the facts below
say that such a search can only hit that element, whatever its neighbours are.
-/

namespace Delimited

universe u

variable {α : Type u}

section Encoding

variable (sep : α)

/-- One separator in front, and one behind every word. -/
def enc : List (List α) → List α
  | [] => [sep]
  | w :: ws => sep :: (w ++ enc ws)

/-- A word with a separator on either side. -/
def bracket (w : List α) : List α := sep :: (w ++ [sep])

@[simp]
theorem enc_nil : enc sep ([] : List (List α)) = [sep] := rfl

theorem enc_cons (w : List α) (ws : List (List α)) : enc sep (w :: ws) = sep :: (w ++ enc sep ws) :=
  rfl

@[simp]
theorem length_bracket (w : List α) : (bracket sep w).length = w.length + 2 := by
  simp [bracket]

theorem enc_eq_cons_tail (ws : List (List α)) : enc sep ws = sep :: (enc sep ws).tail := by
  cases ws <;> rfl

theorem enc_append_singleton (ws : List (List α)) (w : List α) :
    enc sep (ws ++ [w]) = enc sep ws ++ w ++ [sep] := by
  induction ws with
  | nil => simp [enc_cons]
  | cons v ws ih => simp [enc_cons, ih]

/-- A separator in front of the words, and every word followed by exactly one. -/
theorem enc_eq_flatMap (ws : List (List α)) : enc sep ws = sep :: ws.flatMap fun w => w ++ [sep] := by
  induction ws with
  | nil => rfl
  | cons w ws ih => rw [enc_cons, ih, List.flatMap_cons, List.append_assoc, List.singleton_append]

theorem length_enc_le_of_sublist {ws ws' : List (List α)} (h : List.Sublist ws ws') :
    (enc sep ws).length ≤ (enc sep ws').length := by
  induction h with
  | slnil => exact le_rfl
  | cons w _ ih =>
      rw [enc_cons, List.length_cons, List.length_append]
      omega
  | cons_cons w _ ih =>
      rw [enc_cons, enc_cons, List.length_cons, List.length_cons, List.length_append,
        List.length_append]
      omega

/-- The words a delimited list may hold. -/
def IsWord (w : List α) : Prop := w ≠ [] ∧ sep ∉ w

end Encoding

variable [DecidableEq α]

instance (sep : α) (w : List α) : Decidable (IsWord sep w) := inferInstanceAs (Decidable (_ ∧ _))

/-- The offset of the first occurrence of `pat`. -/
def find (pat : List α) : List α → Option Nat
  | [] => if pat = [] then some 0 else none
  | x :: xs => if pat <+: x :: xs then some 0 else (find pat xs).map (· + 1)

theorem find_eq_some_zero {pat l : List α} (h : pat <+: l) : find pat l = some 0 := by
  cases l with
  | nil => simp [find, List.prefix_nil.mp h]
  | cons x xs => simp [find, h]

theorem find_cons_of_not_isPrefix {pat xs : List α} {x : α} (h : ¬ pat <+: x :: xs) :
    find pat (x :: xs) = (find pat xs).map (· + 1) := by
  simp [find, h]

theorem find_spec {pat l : List α} {i : Nat} (h : find pat l = some i) :
    l = l.take i ++ pat ++ l.drop (i + pat.length) := by
  induction l generalizing i with
  | nil =>
      simp only [find] at h
      split at h
      · cases h
        simp_all
      · cases h
  | cons x xs ih =>
      by_cases hpre : pat <+: x :: xs
      · rw [find_eq_some_zero hpre] at h
        cases h
        obtain ⟨rest, hrest⟩ := hpre
        rw [← hrest]
        simp
      · rw [find_cons_of_not_isPrefix hpre, Option.map_eq_some_iff] at h
        obtain ⟨j, hj, rfl⟩ := h
        have hxs := ih hj
        rw [show j + 1 + pat.length = (j + pat.length) + 1 by omega, List.take_succ_cons,
          List.drop_succ_cons]
        exact congrArg (x :: ·) hxs

theorem find_add_length_le {pat l : List α} {i : Nat} (h : find pat l = some i) :
    i + pat.length ≤ l.length := by
  induction l generalizing i with
  | nil =>
      simp only [find] at h
      split at h
      · cases h
        simp_all
      · cases h
  | cons x xs ih =>
      by_cases hpre : pat <+: x :: xs
      · rw [find_eq_some_zero hpre] at h
        cases h
        simpa using hpre.length_le
      · rw [find_cons_of_not_isPrefix hpre, Option.map_eq_some_iff] at h
        obtain ⟨j, hj, rfl⟩ := h
        have := ih hj
        simp only [List.length_cons]
        omega

theorem find_ne_none_of_infix {pat l : List α} (h : pat <:+: l) : find pat l ≠ none := by
  induction l with
  | nil => simp [find, List.infix_nil.mp h]
  | cons x xs ih =>
      by_cases hpre : pat <+: x :: xs
      · simp [find_eq_some_zero hpre]
      · have hxs : pat <:+: xs := (List.infix_cons_iff.mp h).resolve_left hpre
        rw [find_cons_of_not_isPrefix hpre]
        simpa using ih hxs

/-- A marker that begins with a separator and has no other is found where it stands, unless it
stands somewhere in the text in front as well. -/
theorem find_marker_append {c : α} {w text rest : List α} (hc : c ∉ w)
    (htext : ¬ (c :: w) <:+: text) :
    find (c :: w) (text ++ (c :: w) ++ rest) = some text.length := by
  induction text with
  | nil => exact find_eq_some_zero (List.prefix_append _ _)
  | cons x text ih =>
      have htail : ¬ (c :: w) <:+: text := fun h => htext (h.trans (List.suffix_cons x text).isInfix)
      have hfront : ¬ (c :: w) <+: x :: (text ++ (c :: w) ++ rest) := by
        intro hpre
        obtain ⟨rfl, hw⟩ := List.cons_prefix_cons.mp hpre
        rw [List.append_assoc] at hw
        by_cases hlen : w.length ≤ text.length
        · -- the whole marker stands in the text
          have hin : w <+: text :=
            List.prefix_of_prefix_length_le hw (List.prefix_append text _) hlen
          exact htext (List.cons_prefix_cons.mpr ⟨rfl, hin⟩).isInfix
        · -- the marker runs into the separator behind the text
          have hsep : text ++ [c] <+: w := by
            refine List.prefix_of_prefix_length_le ?_ hw ?_
            · exact ⟨w ++ rest, by simp⟩
            · rw [List.length_append, List.length_singleton]
              omega
          exact hc (hsep.subset (by simp))
      rw [List.cons_append, List.cons_append, find_cons_of_not_isPrefix hfront, ih htail]
      rfl

/-- Text added after an occurrence does not move the first one. -/
theorem find_append_of_some {pat l rest : List α} {i : Nat} (h : find pat l = some i) :
    find pat (l ++ rest) = some i := by
  induction l generalizing i with
  | nil =>
      simp only [find] at h
      split at h
      · cases h
        subst pat
        exact find_eq_some_zero (List.nil_prefix)
      · cases h
  | cons x xs ih =>
      by_cases hpre : pat <+: x :: xs
      · rw [find_eq_some_zero hpre] at h
        cases h
        exact find_eq_some_zero (hpre.trans (List.prefix_append _ _))
      · rw [find_cons_of_not_isPrefix hpre, Option.map_eq_some_iff] at h
        obtain ⟨j, hj, rfl⟩ := h
        have hlen := find_add_length_le hj
        have hpre' : ¬ pat <+: x :: (xs ++ rest) := by
          intro hp
          have hshort : pat.length ≤ (x :: xs).length := by
            simp only [List.length_cons]
            omega
          exact hpre (List.prefix_of_prefix_length_le hp
            (List.prefix_append (x :: xs) rest) hshort)
        rw [List.cons_append, find_cons_of_not_isPrefix hpre', ih hj]
        rfl

variable {sep : α}

/-- A pattern that opens with the separator is never found inside a separator-free word. -/
theorem find_append_of_notMem {pat word rest : List α} (h : sep ∉ word) :
    find (sep :: pat) (word ++ rest) = (find (sep :: pat) rest).map (· + word.length) := by
  induction word with
  | nil => simp
  | cons x xs ih =>
      obtain ⟨hx, hxs⟩ : sep ≠ x ∧ sep ∉ xs := by simpa using h
      have hpre : ¬ sep :: pat <+: x :: (xs ++ rest) := by
        intro hp
        exact hx (List.cons_prefix_cons.mp hp).1
      rw [List.cons_append, find_cons_of_not_isPrefix hpre, ih hxs]
      simp [Function.comp_def, Nat.add_assoc]

omit [DecidableEq α] in
/-- A bracketed word at the start of a delimited list is its first word. -/
theorem bracket_prefix_enc_cons {w v : List α} {ws : List (List α)} (hw : sep ∉ w) (hv : sep ∉ v) :
    bracket sep w <+: enc sep (v :: ws) ↔ w = v := by
  rw [bracket, enc_cons, List.cons_prefix_cons, enc_eq_cons_tail]
  simp only [true_and]
  constructor
  · induction w generalizing v with
    | nil =>
        intro hp
        cases v with
        | nil => rfl
        | cons y ys =>
            have := (List.cons_prefix_cons.mp hp).1
            simp [this] at hv
    | cons x xs ih =>
        intro hp
        cases v with
        | nil =>
            have := (List.cons_prefix_cons.mp hp).1
            simp [this] at hw
        | cons y ys =>
            obtain ⟨hxy, hrest⟩ := List.cons_prefix_cons.mp hp
            have := ih (fun hm => hw (List.mem_cons_of_mem _ hm))
              (fun hm => hv (List.mem_cons_of_mem _ hm)) hrest
            rw [hxy, this]
  · rintro rfl
    exact ⟨(enc sep ws).tail, by simp⟩

/-- The search for a bracketed word steps over the words in front of it. -/
theorem find_bracket_enc_cons {w v : List α} {ws : List (List α)} (hw : sep ∉ w) (hv : sep ∉ v) :
    find (bracket sep w) (enc sep (v :: ws))
      = if w = v then some 0
        else (find (bracket sep w) (enc sep ws)).map (· + (v.length + 1)) := by
  by_cases hwv : w = v
  · rw [if_pos hwv]
    exact find_eq_some_zero ((bracket_prefix_enc_cons hw hv).mpr hwv)
  · rw [if_neg hwv]
    have hpre : ¬ bracket sep w <+: sep :: (v ++ enc sep ws) :=
      fun hp => hwv ((bracket_prefix_enc_cons hw hv).mp hp)
    rw [enc_cons, find_cons_of_not_isPrefix hpre, bracket, find_append_of_notMem hv]
    simp [Function.comp_def, Nat.add_assoc]

theorem find_bracket_enc_nil (w : List α) : find (bracket sep w) (enc sep []) = none := by
  cases h : find (bracket sep w) (enc sep []) with
  | none => rfl
  | some i =>
      have := find_add_length_le h
      simp only [length_bracket, enc_nil, List.length_singleton] at this
      omega

/-- A delimited search succeeds exactly on the words of the list. -/
theorem find_bracket_enc_eq_none {w : List α} {ws : List (List α)} (hw : sep ∉ w)
    (hws : ∀ v ∈ ws, sep ∉ v) : find (bracket sep w) (enc sep ws) = none ↔ w ∉ ws := by
  induction ws with
  | nil => simp only [find_bracket_enc_nil, List.not_mem_nil, not_false_eq_true]
  | cons v ws ih =>
      have hv : sep ∉ v := hws v List.mem_cons_self
      have htail : ∀ u ∈ ws, sep ∉ u := fun u hu => hws u (List.mem_cons_of_mem _ hu)
      rw [find_bracket_enc_cons hw hv]
      by_cases hwv : w = v
      · simp [hwv]
      · simp [hwv, ih htail]

/-- Replacing the found bracketed word by one separator deletes that word and nothing else. -/
theorem splice_bracket_enc {w : List α} {ws : List (List α)} {i : Nat} (hw : sep ∉ w)
    (hws : ∀ v ∈ ws, sep ∉ v) (hfind : find (bracket sep w) (enc sep ws) = some i) :
    (enc sep ws).take i ++ [sep] ++ (enc sep ws).drop (i + (bracket sep w).length)
      = enc sep (ws.erase w) := by
  induction ws generalizing i with
  | nil =>
      rw [find_bracket_enc_nil] at hfind
      cases hfind
  | cons v ws ih =>
      have hv : sep ∉ v := hws v List.mem_cons_self
      have htail : ∀ u ∈ ws, sep ∉ u := fun u hu => hws u (List.mem_cons_of_mem _ hu)
      rw [find_bracket_enc_cons hw hv] at hfind
      by_cases hwv : w = v
      · subst hwv
        rw [if_pos rfl] at hfind
        cases hfind
        rw [List.erase_cons_head, length_bracket, enc_cons]
        conv_rhs => rw [enc_eq_cons_tail]
        have hdrop : (w ++ enc sep ws).drop (w.length + 1) = (enc sep ws).tail := by
          rw [List.drop_length_add_append, List.drop_one]
        simp [hdrop]
      · rw [if_neg hwv, Option.map_eq_some_iff] at hfind
        obtain ⟨j, hj, rfl⟩ := hfind
        have hrec := ih htail hj
        rw [List.erase_cons_tail (by simpa using fun h => hwv h.symm), enc_cons, enc_cons, ← hrec]
        have htake : (v ++ enc sep ws).take (j + v.length) = v ++ (enc sep ws).take j := by
          rw [Nat.add_comm, List.take_length_add_append]
        have hdrop : (v ++ enc sep ws).drop (j + v.length + (bracket sep w).length)
            = (enc sep ws).drop (j + (bracket sep w).length) := by
          rw [show j + v.length + (bracket sep w).length
            = v.length + (j + (bracket sep w).length) by omega, List.drop_length_add_append]
        rw [show j + (v.length + 1) = (j + v.length) + 1 by omega, List.take_succ_cons, htake,
          show j + v.length + 1 + (bracket sep w).length
            = (j + v.length + (bracket sep w).length) + 1 by omega, List.drop_succ_cons, hdrop]
        simp

variable (sep)

/-- The words between separators, empty ones skipped. -/
def words (cur : List α) : List α → List (List α)
  | [] => if cur = [] then [] else [cur]
  | x :: xs =>
      if x = sep then if cur = [] then words [] xs else cur :: words [] xs
      else words (cur ++ [x]) xs

variable {sep}

theorem words_append_of_notMem {cur word rest : List α} (h : sep ∉ word) :
    words sep cur (word ++ rest) = words sep (cur ++ word) rest := by
  induction word generalizing cur with
  | nil => simp
  | cons x xs ih =>
      obtain ⟨hx, hxs⟩ : sep ≠ x ∧ sep ∉ xs := by simpa using h
      rw [List.cons_append, words, if_neg (Ne.symm hx), ih hxs]
      simp

theorem words_enc {ws : List (List α)} (hws : ∀ w ∈ ws, IsWord sep w) :
    words sep [] (enc sep ws) = ws := by
  induction ws with
  | nil => simp [words]
  | cons w ws ih =>
      obtain ⟨hne, hw⟩ := hws w List.mem_cons_self
      have hrest := ih fun v hv => hws v (List.mem_cons_of_mem _ hv)
      rw [enc_cons, words, if_pos rfl, if_pos rfl, words_append_of_notMem hw, List.nil_append]
      rw [enc_eq_cons_tail] at hrest ⊢
      rw [words, if_pos rfl, if_pos rfl] at hrest
      rw [words, if_pos rfl, if_neg hne, hrest]

theorem notMem_of_mem_words {cur l w : List α} (hcur : sep ∉ cur) (hw : w ∈ words sep cur l) :
    sep ∉ w := by
  induction l generalizing cur with
  | nil =>
      rw [words] at hw
      split at hw
      · exact absurd hw List.not_mem_nil
      · rwa [List.mem_singleton.mp hw]
  | cons x xs ih =>
      rw [words] at hw
      split at hw
      · split at hw
        · exact ih List.not_mem_nil hw
        · rcases List.mem_cons.mp hw with rfl | hw
          · exact hcur
          · exact ih List.not_mem_nil hw
      · next hx =>
          refine ih ?_ hw
          rw [List.mem_append, List.mem_singleton, not_or]
          exact ⟨hcur, Ne.symm hx⟩

end Delimited
