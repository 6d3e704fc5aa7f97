import Mathlib.Algebra.Order.Ring.Int
import Mathlib.Data.List.Chain
import Mathlib.Data.List.Nodup
import Mathlib.Data.Nat.ModEq

/-!
# Chains through the slots of an array

An array used around its end, where the slot of a count is the count modulo the size, and links from
slot to slot. The pointer to the first slot is the link of `none`, and the last slot links to `none`,
so what is said of a link in the middle of a chain is said of both ends as well.
-/

namespace SlotChain

/-! ### Slots -/

/-- The slot of a count, in an array of `n`. -/
def slot (n c i : Nat) : Nat := (c + i) % n

section

variable {n c i j : Nat}

theorem slot_lt (hn : 0 < n) : slot n c i < n := Nat.mod_lt _ hn

theorem slot_succ : (slot n c i + 1) % n = slot n c (i + 1) := by
  rw [slot, slot, Nat.mod_add_mod, Nat.add_assoc]

theorem slot_pred (hn : 0 < n) : (slot n c (i + 1) + n - 1) % n = slot n c i := by
  have hlt := slot_lt (c := c) (i := i) hn
  rw [← slot_succ]
  by_cases hwrap : slot n c i + 1 = n
  · rw [hwrap, Nat.mod_self, Nat.zero_add, Nat.mod_eq_of_lt (by omega)]
    omega
  · rw [Nat.mod_eq_of_lt (show slot n c i + 1 < n by omega),
      show slot n c i + 1 + n - 1 = slot n c i + n by omega, Nat.add_mod_right, Nat.mod_eq_of_lt hlt]

theorem slot_add (d : Nat) : (slot n c i + d) % n = slot n c (i + d) := by
  rw [slot, slot, Nat.mod_add_mod, Nat.add_assoc]

/-- Some count has the first slot, whichever it is. -/
theorem exists_slot_eq_zero (hn : 0 < n) (i : Nat) : ∃ c, slot n c i = 0 := by
  refine ⟨n * (i + 1) - i, ?_⟩
  have hle : i + 1 ≤ n * (i + 1) := Nat.le_mul_of_pos_left _ hn
  rw [slot, Nat.sub_add_cancel (by omega), Nat.mul_mod_right]

/-- A later slot is behind an earlier one or around the end. -/
theorem slot_add_eq {d : Nat} (hd : d < n) : slot n c (i + d) =
    if slot n c i + d < n then slot n c i + d else slot n c i + d - n := by
  have hlt := slot_lt (c := c) (i := i) (show 0 < n by omega)
  rw [← slot_add]
  split
  · exact Nat.mod_eq_of_lt (by assumption)
  · rw [Nat.mod_eq_sub_mod (by omega), Nat.mod_eq_of_lt (by omega)]

/-- Counts less than the size apart have slots of their own. -/
theorem slot_inj (hij : i < j + n) (hji : j < i + n) : slot n c i = slot n c j ↔ i = j := by
  constructor
  · intro heq
    have hmod : i ≡ j [MOD n] := Nat.ModEq.add_left_cancel' c heq
    have key : ∀ {a b : Nat}, a ≤ b → b < a + n → a ≡ b [MOD n] → a = b := by
      intro a b hle hlt hab
      have hdvd : n ∣ b - a := (Nat.modEq_iff_dvd' hle).mp hab
      have := Nat.eq_zero_of_dvd_of_lt hdvd (by omega)
      omega
    rcases Nat.le_total i j with hle | hle
    · exact key hle hji hmod
    · exact (key hle hij hmod.symm).symm
  · exact congrArg _

/-- The slot of an earlier count. -/
theorem slot_sub {d : Nat} (hd : d < n) : (slot n c (i + d) + n - d) % n = slot n c i := by
  have hadd := slot_add_eq (c := c) (i := i) hd
  have hlt := slot_lt (c := c) (i := i) (show 0 < n by omega)
  split at hadd
  · rw [hadd, show slot n c i + d + n - d = slot n c i + n by omega, Nat.add_mod_right,
      Nat.mod_eq_of_lt hlt]
  · rw [hadd, show slot n c i + d - n + n - d = slot n c i by omega, Nat.mod_eq_of_lt hlt]

end

/-! ### Chains -/

variable {κ : Type*} {next next' : Option κ → Option κ} {p mid mid' q l : List κ} {x : κ}

/-- The pointer to the first slot and the links, as one map. -/
def links (head : Option κ) (next : κ → Option κ) : Option κ → Option κ
  | none => head
  | some k => next k

@[simp]
theorem links_none (head : Option κ) (next : κ → Option κ) : links head next none = head := rfl

@[simp]
theorem links_some (head : Option κ) (next : κ → Option κ) (k : κ) :
    links head next (some k) = next k := rfl

theorem links_update_head [DecidableEq κ] (head v : Option κ) (next : κ → Option κ) :
    links v next = Function.update (links head next) none v := by
  funext u
  cases u with
  | none => rw [Function.update_self, links_none]
  | some k => rw [Function.update_of_ne (Option.some_ne_none k), links_some, links_some]

theorem links_update_next [DecidableEq κ] (head v : Option κ) (next : κ → Option κ) (k : κ) :
    links head (Function.update next k v) = Function.update (links head next) (some k) v := by
  funext u
  cases u with
  | none => rw [Function.update_of_ne (Option.some_ne_none k).symm, links_none, links_none]
  | some m =>
      by_cases hm : m = k
      · rw [hm, links_some, Function.update_self, Function.update_self]
      · rw [links_some, Function.update_of_ne hm, Function.update_of_ne (mt Option.some.inj hm),
          links_some]

/-- Following the links from the first meets the slots of the list, and then nothing. -/
def Leads (next : Option κ → Option κ) (l : List κ) : Prop :=
  List.IsChain (fun x y => next x = y) (none :: (l.map some ++ [none]))

theorem leads_nil : Leads next ([] : List κ) ↔ next none = none :=
  ⟨fun h => (List.isChain_cons_cons.mp h).1, fun h => List.isChain_pair.mpr h⟩

theorem getLast?_path (p : List κ) : (none :: p.map some).getLast? = some p.getLast? := by
  cases p using List.reverseRecOn with
  | nil => rfl
  | append_singleton p a =>
      rw [List.map_append, ← List.cons_append, List.map_singleton, List.getLast?_concat,
        List.getLast?_concat]

theorem head?_path (q : List κ) : (q.map some ++ [none]).head? = some q.head? := by
  cases q <;> rfl

theorem Leads.split (h : Leads next (p ++ q)) : next p.getLast? = q.head? := by
  rw [Leads, List.map_append, List.append_assoc, ← List.cons_append, List.isChain_append] at h
  exact h.2.2 _ (getLast?_path p) _ (head?_path q)

theorem Leads.head (h : Leads next l) : next none = l.head? := h.split (p := [])

theorem Leads.next_eq (h : Leads next (p ++ x :: q)) : next (some x) = q.head? := by
  rw [← List.singleton_append, ← List.append_assoc] at h
  have hsplit := h.split
  rwa [List.getLast?_concat] at hsplit

theorem isChain_of_agree {l : List (Option κ)} (h : List.IsChain (fun x y => next x = y) l)
    (hnext : ∀ x ∈ l.dropLast, next' x = next x) : List.IsChain (fun x y => next' x = y) l := by
  induction l with
  | nil => exact List.isChain_nil
  | cons a l ih =>
      cases l with
      | nil => exact List.isChain_singleton a
      | cons b l =>
          obtain ⟨hab, hrest⟩ := List.isChain_cons_cons.mp h
          refine List.isChain_cons_cons.mpr ⟨?_, ih hrest fun x hx => hnext x ?_⟩
          · rw [hnext a (by simp), hab]
          · rw [List.dropLast_cons_cons]
            exact List.mem_cons_of_mem _ hx

/-- **Exchange.** A stretch of a chain for another. Only the link into it and its own links change. -/
theorem Leads.exchange (p mid mid' q : List κ) (h : Leads next (p ++ (mid ++ q)))
    (hnodup : (p ++ (mid ++ q)).Nodup) (hnodup' : (p ++ (mid' ++ q)).Nodup)
    (hmid : List.IsChain (fun x y => next' x = y) (p.getLast? :: (mid'.map some ++ [q.head?])))
    (hframe : ∀ u, u ≠ p.getLast? → (∀ x ∈ mid, u ≠ some x) → (∀ x ∈ mid', u ≠ some x) →
      next' u = next u) : Leads next' (p ++ (mid' ++ q)) := by
  rw [Leads, List.map_append, List.map_append, List.append_assoc, List.append_assoc,
    ← List.cons_append, List.isChain_append] at h
  obtain ⟨hleft, hright, -⟩ := h
  have hright' := (List.isChain_append.mp hright).2.1
  -- no slot of the rest belongs to either stretch
  have hout : ∀ {m : List κ}, (p ++ (m ++ q)).Nodup → ∀ y, y ∈ p ∨ y ∈ q → ∀ x ∈ m,
      some y ≠ some x := by
    intro m hnd y hy x hx heq
    obtain rfl := Option.some.inj heq
    rw [List.nodup_append, List.nodup_append] at hnd
    obtain ⟨-, ⟨-, -, hmq⟩, hpm⟩ := hnd
    rcases hy with hy | hy
    · exact hpm y hy y (List.mem_append_left _ hx) rfl
    · exact hmq y hx y hy rfl
  -- the path to the stretch ends where the stretch is entered
  obtain ⟨front, hfront⟩ := List.getLast?_eq_some_iff.mp (getLast?_path p)
  obtain ⟨back, hback⟩ := List.head?_eq_some_iff.mp (head?_path q)
  have hpnodup : (none :: p.map some).Nodup :=
    List.nodup_cons.mpr ⟨by simp, (List.nodup_append.mp hnodup).1.map (Option.some_injective _)⟩
  rw [Leads, List.map_append, List.map_append, List.append_assoc, List.append_assoc,
    ← List.cons_append, hfront, hback, List.append_assoc, List.singleton_append]
  refine List.isChain_split.mpr ⟨?_, ?_⟩
  · rw [← hfront]
    apply isChain_of_agree hleft
    intro u hu
    rw [hfront, List.dropLast_concat] at hu
    have hlast : u ≠ p.getLast? := by
      rintro rfl
      rw [hfront] at hpnodup
      exact (List.nodup_append.mp hpnodup).2.2 _ hu _ List.mem_cons_self rfl
    have hmem : u ∈ none :: p.map some := by
      rw [hfront]
      exact List.mem_append_left _ hu
    rcases List.mem_cons.mp hmem with rfl | hmem
    · exact hframe _ hlast (fun x _ => (Option.some_ne_none x).symm)
        fun x _ => (Option.some_ne_none x).symm
    · obtain ⟨y, hy, rfl⟩ := List.mem_map.mp hmem
      exact hframe _ hlast (hout hnodup y (.inl hy)) (hout hnodup' y (.inl hy))
  · rw [← List.cons_append]
    refine List.isChain_split.mpr ⟨hmid, ?_⟩
    rw [← hback]
    apply isChain_of_agree hright'
    intro u hu
    rw [List.dropLast_concat] at hu
    obtain ⟨y, hy, rfl⟩ := List.mem_map.mp hu
    refine hframe _ (fun heq => ?_) (hout hnodup y (.inr hy)) (hout hnodup' y (.inr hy))
    rw [List.nodup_append] at hnodup
    exact hnodup.2.2 y (List.mem_of_getLast? heq.symm) y (List.mem_append_right _ hy) rfl

/-- A stretch out of a chain. -/
theorem Leads.unlink [DecidableEq κ] (p mid q : List κ) (h : Leads next (p ++ (mid ++ q)))
    (hnodup : (p ++ (mid ++ q)).Nodup) : Leads (Function.update next p.getLast? q.head?) (p ++ q) := by
  have hsub : List.Sublist (p ++ q) (p ++ (mid ++ q)) :=
    List.Sublist.append_left (List.sublist_append_right _ _) p
  apply h.exchange p mid [] q hnodup (hnodup.sublist hsub)
  · simp
  · intro u hu _ _
    exact Function.update_of_ne hu ..

/-- A slot in the place of a stretch, which may be empty. -/
theorem Leads.relink [DecidableEq κ] (p mid q : List κ) (h : Leads next (p ++ (mid ++ q)))
    (hnodup : (p ++ (mid ++ q)).Nodup) (hnodup' : (p ++ ([x] ++ q)).Nodup) :
    Leads (Function.update (Function.update next (some x) q.head?) p.getLast? (some x))
      (p ++ ([x] ++ q)) := by
  have hlast : some x ≠ p.getLast? := fun heq =>
    (List.nodup_append.mp hnodup').2.2 x (List.mem_of_getLast? heq.symm) x (by simp) rfl
  apply h.exchange p mid [x] q hnodup hnodup'
  · simp [Function.update_of_ne hlast]
  · intro u hu _ hux
    rw [Function.update_of_ne hu, Function.update_of_ne (hux x List.mem_cons_self)]

end SlotChain
