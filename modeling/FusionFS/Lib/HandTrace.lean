import FusionFS.Lib.Run
import FusionFS.Lib.SecondChance

/-!
# What the hand of a second-chance queue looks at

The queue with a record of the entries whose bit the hand has cleared, in the order in which it came
to them. Between a touch of an entry and its eviction the hand clears its bit, goes round, and clears
the bits of all the others that stay.
-/

namespace SecondChance

open Transition

universe u

variable {α : Type u}

/-- `evict`, with the entries that are passed over. -/
def evictTrace : Nat → Queue α → Option (List α × α × Queue α)
  | 0, _ => none
  | _ + 1, [] => none
  | _ + 1, (a, false) :: q => some ([], a, q)
  | fuel + 1, (a, true) :: q => (evictTrace fuel (q ++ [(a, false)])).map fun r => (a :: r.1, r.2)

/-- `remque`, with the entries that are passed over. An entry on its own goes without a look. -/
def remqueTrace (q : Queue α) : Option (List α × α × Queue α) :=
  match q with
  | [e] => some ([], e.1, [])
  | q => evictTrace (q.length + 1) q

theorem evictTrace_erase (fuel : Nat) (q : Queue α) :
    (evictTrace fuel q).map Prod.snd = evict fuel q := by
  induction fuel generalizing q with
  | zero => rfl
  | succ fuel ih =>
      match q with
      | [] => rfl
      | (a, false) :: q => rfl
      | (a, true) :: q =>
          rw [evictTrace, evict, Option.map_map, ← ih]
          rfl

theorem remqueTrace_erase (q : Queue α) : (remqueTrace q).map Prod.snd = remque q := by
  unfold remqueTrace
  split
  · next e =>
    obtain ⟨r, hr⟩ := Option.isSome_iff_exists.mp (remque_isSome (List.cons_ne_nil e []))
    rw [hr, evict_singleton hr]
    rfl
  · exact evictTrace_erase _ q

theorem evictTrace_mono {fuel more : Nat} {q : Queue α} {r : List α × α × Queue α}
    (h : evictTrace fuel q = some r) (hle : fuel ≤ more) : evictTrace more q = some r := by
  induction fuel generalizing more q r with
  | zero => cases h
  | succ fuel ih =>
      obtain ⟨extra, rfl⟩ : ∃ extra, more = extra + 1 := ⟨more - 1, by omega⟩
      match q, h with
      | (a, false) :: q, h => exact h
      | (a, true) :: q, h =>
          obtain ⟨r', hr', rfl⟩ := Option.map_eq_some_iff.mp h
          rw [evictTrace, ih hr' (by omega), Option.map_some]

/-! ### From the touch of an entry to its eviction -/

/-- Where `f` stands since its touch, and what the hand has cleared since: `f` is still marked, or
its bit has been cleared and `g` either lies ahead of the hand or has been cleared behind it, or `f`
is out. -/
inductive Chance (f g : α) (seen : List α) (q : Queue α) : Prop where
  | marked (h : (f, true) ∈ q)
  | cleared (p r : Queue α) (hq : q = p ++ (f, false) :: r) (hseen : f ∈ seen)
      (hg : g ∈ names p ∨ [f, g].Sublist seen)
  | out (h : f ∉ names q)

variable {f g : α} {seen : List α}

theorem sublist_pair_concat (hf : f ∈ seen) : [f, g].Sublist (seen ++ [g]) :=
  (List.singleton_sublist.mpr hf).append (List.Sublist.refl [g])

/-- The hand clears a bit and moves on. -/
theorem Chance.pass {a : α} {q : Queue α} (h : Chance f g seen ((a, true) :: q))
    (hnodup : (names ((a, true) :: q)).Nodup) (hg : g ∈ names ((a, true) :: q)) (hfg : g ≠ f) :
    Chance f g (seen ++ [a]) (q ++ [(a, false)]) := by
  cases h with
  | marked hf =>
      rcases List.mem_cons.mp hf with heq | hf
      · obtain rfl : f = a := congrArg Prod.fst heq
        have hrest : g ∈ names q := (List.mem_cons.mp hg).resolve_left hfg
        exact .cleared q [] rfl (List.mem_append_right _ (List.mem_singleton_self f)) (.inl hrest)
      · exact .marked (List.mem_append_left _ hf)
  | cleared p r hq hseen hbehind =>
      cases p with
      | nil => cases hq
      | cons e p =>
          obtain ⟨rfl, rfl⟩ := List.cons_eq_cons.mp hq
          refine .cleared p (r ++ [(a, false)]) (by simp) (List.mem_append_left _ hseen) ?_
          rcases hbehind with hmem | hsub
          · rcases List.mem_cons.mp hmem with rfl | hmem
            · exact .inr (sublist_pair_concat hseen)
            · exact .inl hmem
          · exact .inr (hsub.trans (List.sublist_append_left _ _))
  | out hf =>
      apply Chance.out
      rw [names_append]
      simpa [or_comm] using hf

/-- The hand takes an entry out: `f` only once `g` has been cleared behind it. -/
theorem Chance.take {a : α} {q : Queue α} (h : Chance f g seen ((a, false) :: q))
    (hnodup : (names ((a, false) :: q)).Nodup) (hga : g ≠ a) :
    (a = f → [f, g].Sublist seen) ∧ Chance f g seen q := by
  have hout : a ∉ names q := (List.nodup_cons.mp hnodup).1
  cases h with
  | marked hf =>
      have hmem : (f, true) ∈ q := by simpa using hf
      refine ⟨?_, .marked hmem⟩
      rintro rfl
      exact absurd (List.mem_map_of_mem hmem) hout
  | cleared p r hq hseen hbehind =>
      cases p with
      | nil =>
          obtain ⟨heq, rfl⟩ := List.cons_eq_cons.mp hq
          obtain rfl : a = f := congrArg Prod.fst heq
          exact ⟨fun _ => hbehind.resolve_left List.not_mem_nil, .out hout⟩
      | cons e p =>
          obtain ⟨rfl, rfl⟩ := List.cons_eq_cons.mp hq
          refine ⟨?_, .cleared p r rfl hseen ?_⟩
          · rintro rfl
            exact absurd (by simp) hout
          · exact hbehind.imp_left fun hmem => (List.mem_cons.mp hmem).resolve_left hga
  | out hf =>
      refine ⟨?_, .out fun hmem => hf (List.mem_cons_of_mem _ hmem)⟩
      rintro rfl
      exact absurd List.mem_cons_self hf

theorem Chance.evictTrace {fuel : Nat} {q rest : Queue α} {passed : List α} {a : α}
    (h : Chance f g seen q) (hnodup : (names q).Nodup) (hfg : g ≠ f)
    (htrace : evictTrace fuel q = some (passed, a, rest)) (hg : g ∈ names rest) :
    (a = f → [f, g].Sublist (seen ++ passed)) ∧ Chance f g (seen ++ passed) rest := by
  induction fuel generalizing q seen passed with
  | zero => cases htrace
  | succ fuel ih =>
      match q, htrace with
      | (b, false) :: q, htrace =>
          obtain ⟨rfl, hpair⟩ := Prod.mk.inj (Option.some.inj htrace)
          obtain ⟨rfl, rfl⟩ := Prod.mk.inj hpair
          rw [List.append_nil]
          refine h.take hnodup ?_
          rintro rfl
          exact (List.nodup_cons.mp hnodup).1 hg
      | (b, true) :: q, htrace =>
          obtain ⟨⟨passed', r⟩, hrest, heq⟩ := Option.map_eq_some_iff.mp htrace
          obtain ⟨rfl, rfl⟩ := Prod.mk.inj heq
          have herase := evictTrace_erase fuel (q ++ [(b, false)])
          rw [hrest, Option.map_some] at herase
          have hperm := names_perm_of_evict herase.symm
          have hrot : (names (q ++ [(b, false)])).Perm (names ((b, true) :: q)) := by
            rw [names_append]
            exact List.perm_append_singleton b (names q)
          have hmem : g ∈ names ((b, true) :: q) :=
            hrot.mem_iff.mp (hperm.mem_iff.mpr (List.mem_cons_of_mem _ hg))
          have hnext := ih (h.pass hnodup hmem hfg) (hrot.nodup_iff.mpr hnodup) hrest
          rw [List.append_assoc] at hnext
          exact hnext

theorem Chance.remqueTrace {q rest : Queue α} {passed : List α} {a : α} (h : Chance f g seen q)
    (hnodup : (names q).Nodup) (hfg : g ≠ f) (htrace : remqueTrace q = some (passed, a, rest))
    (hg : g ∈ names rest) :
    (a = f → [f, g].Sublist (seen ++ passed)) ∧ Chance f g (seen ++ passed) rest := by
  unfold SecondChance.remqueTrace at htrace
  split at htrace
  · cases htrace
    cases hg
  · exact h.evictTrace hnodup hfg htrace hg

variable [DecidableEq α]

theorem Chance.insque {a : α} {q : Queue α} (h : Chance f g seen q) (ha : a ≠ f) :
    Chance f g seen (insque a q) := by
  have hkeep : ∀ e ∈ q, e.1 = f → e ∈ SecondChance.insque a q := by
    intro e he hef
    unfold SecondChance.insque
    split
    · refine List.mem_map.mpr ⟨e, he, if_neg ?_⟩
      rw [hef]
      exact ha.symm
    · exact List.mem_append_left _ he
  cases h with
  | marked hf => exact .marked (hkeep _ hf rfl)
  | cleared p r hq hseen hbehind =>
      subst hq
      unfold SecondChance.insque
      split
      · rw [List.map_append, List.map_cons, if_neg ha.symm]
        refine .cleared _ _ rfl hseen (hbehind.imp_left fun hmem => ?_)
        have hnames : names (p.map fun e => if e.1 = a then (e.1, true) else e) = names p := by
          rw [names, List.map_map]
          refine List.map_congr_left fun e _ => ?_
          rw [Function.comp_apply]
          split <;> rfl
        rw [hnames]
        exact hmem
      · exact .cleared p (r ++ [(a, true)]) (by simp) hseen hbehind
  | out hf =>
      refine .out fun hmem => ?_
      rcases mem_names_insque.mp hmem with rfl | hmem
      · exact ha rfl
      · exact hf hmem

theorem Chance.rmelem {a : α} {q : Queue α} (h : Chance f g seen q) (hga : g ≠ a) :
    Chance f g seen (rmelem a q) := by
  by_cases ha : f = a
  · subst ha
    exact .out fun hmem => (mem_names_rmelem.mp hmem).2 rfl
  cases h with
  | marked hf => exact .marked (List.mem_filter.mpr ⟨hf, decide_eq_true ha⟩)
  | cleared p r hq hseen hbehind =>
      subst hq
      refine .cleared (SecondChance.rmelem a p) (SecondChance.rmelem a r) ?_ hseen
        (hbehind.imp_left fun hmem => mem_names_rmelem.mpr ⟨hmem, hga⟩)
      simp [SecondChance.rmelem, ha]
  | out hf => exact .out fun hmem => hf (mem_names_rmelem.mp hmem).1

theorem mem_insque_self (a : α) (q : Queue α) : (a, true) ∈ SecondChance.insque a q := by
  unfold SecondChance.insque
  split
  · next hmem =>
    obtain ⟨e, he, rfl⟩ := List.mem_map.mp hmem
    exact List.mem_map.mpr ⟨e, he, if_pos rfl⟩
  · exact List.mem_append_right _ (List.mem_singleton_self _)

/-! ### Runs -/

/-- A call of the queue. -/
inductive Call (α : Type u) where
  | insque (a : α)
  | rmelem (a : α)
  | remque

/-- One call, on the queue and the record of what the hand has cleared. -/
def traceStep : Queue α × List α → Call α → Option (Queue α × List α)
  | (q, seen), .insque a => some (insque a q, seen)
  | (q, seen), .rmelem a => some (rmelem a q, seen)
  | (q, seen), .remque => (remqueTrace q).map fun r => (r.2.2, seen ++ r.1)

theorem exists_seen_append {q q' : Queue α} {seen seen' : List α} {calls : List (Call α)}
    (h : run traceStep (q, seen) calls = some (q', seen')) : ∃ more, seen' = seen ++ more := by
  induction calls generalizing q seen with
  | nil =>
      obtain ⟨-, rfl⟩ := Prod.mk.inj (Option.some.inj h)
      exact ⟨[], (List.append_nil seen).symm⟩
  | cons c calls ih =>
      rw [run_cons, Option.bind_eq_some_iff] at h
      obtain ⟨⟨q₁, seen₁⟩, hstep, hrest⟩ := h
      obtain ⟨more, rfl⟩ := ih hrest
      cases c with
      | insque a =>
          cases hstep
          exact ⟨more, rfl⟩
      | rmelem a =>
          cases hstep
          exact ⟨more, rfl⟩
      | remque =>
          obtain ⟨r, -, heq⟩ := Option.map_eq_some_iff.mp hstep
          cases heq
          exact ⟨r.1 ++ more, List.append_assoc _ _ _⟩

omit [DecidableEq α] in
theorem nodup_names_remqueTrace {q rest : Queue α} {passed : List α} {a : α}
    (h : SecondChance.remqueTrace q = some (passed, a, rest)) (hnodup : (names q).Nodup) :
    (names rest).Nodup := by
  have herase := remqueTrace_erase q
  rw [h, Option.map_some] at herase
  exact (List.nodup_cons.mp ((names_perm_of_remque herase.symm).nodup_iff.mp hnodup)).2

theorem nodup_names_traceStep {q q' : Queue α} {seen seen' : List α} {c : Call α}
    (h : traceStep (q, seen) c = some (q', seen')) (hnodup : (names q).Nodup) :
    (names q').Nodup := by
  cases c with
  | insque a =>
      cases h
      exact nodup_names_insque hnodup
  | rmelem a =>
      cases h
      exact nodup_names_rmelem hnodup
  | remque =>
      obtain ⟨⟨passed, a, rest⟩, hr, heq⟩ := Option.map_eq_some_iff.mp h
      cases heq
      exact nodup_names_remqueTrace hr hnodup

theorem Chance.step {q q' : Queue α} {before more : List α} {seen' : List α} {c : Call α}
    (h : Chance f g more q) (hnodup : (names q).Nodup) (hfg : g ≠ f) (hc : c ≠ .insque f)
    (hstep : traceStep (q, before ++ more) c = some (q', seen')) (hg : g ∈ names q') :
    ∃ more', seen' = before ++ more' ∧ Chance f g more' q' := by
  cases c with
  | insque a =>
      cases hstep
      exact ⟨more, rfl, h.insque fun heq => hc (congrArg Call.insque heq)⟩
  | rmelem a =>
      cases hstep
      exact ⟨more, rfl, h.rmelem (mem_names_rmelem.mp hg).2⟩
  | remque =>
      obtain ⟨⟨passed, a, rest⟩, hr, heq⟩ := Option.map_eq_some_iff.mp hstep
      cases heq
      exact ⟨more ++ passed, List.append_assoc _ _ _, (h.remqueTrace hnodup hfg hr hg).2⟩

theorem Chance.run {q q' : Queue α} {before more seen' : List α} {calls : List (Call α)}
    (h : Chance f g more q) (hnodup : (names q).Nodup) (hfg : g ≠ f)
    (hno : Call.insque f ∉ calls)
    (hstay : Always traceStep (fun s => g ∈ names s.1) (q, before ++ more) calls)
    (hrun : run traceStep (q, before ++ more) calls = some (q', seen')) :
    ∃ more', seen' = before ++ more' ∧ Chance f g more' q' ∧ (names q').Nodup := by
  induction calls generalizing q more with
  | nil =>
      cases hrun
      exact ⟨more, rfl, h, hnodup⟩
  | cons c calls ih =>
      rw [run_cons, Option.bind_eq_some_iff] at hrun
      obtain ⟨⟨q₁, seen₁⟩, hstep, hrest⟩ := hrun
      have hstay₁ := hstay.2 _ hstep
      have hg : g ∈ names q₁ := hstay₁.head
      obtain ⟨more₁, rfl, h₁⟩ :=
        h.step hnodup hfg (fun heq => hno (heq ▸ List.mem_cons_self)) hstep hg
      exact ih h₁ (nodup_names_traceStep hstep hnodup)
        (fun hmem => hno (List.mem_cons_of_mem _ hmem)) hstay₁ hrest

/-- **The second look.** From a touch of `f` to its eviction, the hand clears the bit of every other
entry that stays, behind the clearing of `f`. -/
theorem second_look {q q' rest : Queue α} {before seen' passed : List α} {calls : List (Call α)}
    (hf : (f, true) ∈ q) (hnodup : (names q).Nodup) (hfg : g ≠ f) (hno : Call.insque f ∉ calls)
    (hstay : Always traceStep (fun s => g ∈ names s.1) (q, before) (calls ++ [.remque]))
    (hrun : run traceStep (q, before) calls = some (q', seen'))
    (hlast : remqueTrace q' = some (passed, f, rest)) :
    ∃ more, seen' = before ++ more ∧ [f, g].Sublist (more ++ passed) := by
  have hmid : Always traceStep (fun s => g ∈ names s.1) (q, before ++ []) calls := by
    rw [List.append_nil]
    exact hstay.of_append
  have hstart : Chance f g [] q := .marked hf
  obtain ⟨more, rfl, hchance, hnodup'⟩ :=
    hstart.run hnodup hfg hno hmid (by rwa [List.append_nil])
  have hafter : g ∈ names rest := by
    have hall : run traceStep (q, before) (calls ++ [.remque]) =
        some (rest, before ++ more ++ passed) := by
      rw [run_append, hrun, Option.bind_some, run_cons, traceStep, hlast]
      rfl
    rw [← List.append_nil (calls ++ [_])] at hstay
    exact hstay.reached hall
  exact ⟨more, rfl, (hchance.remqueTrace hnodup' hfg hlast hafter).1 rfl⟩

/-- An entry that stands marked, if it is there at all. -/
def MarkedIfIn (f : α) (q : Queue α) : Prop := ∀ e ∈ q, e.1 = f → e.2 = true

theorem MarkedIfIn.insque {a : α} {q : Queue α} (h : MarkedIfIn f q) :
    MarkedIfIn f (SecondChance.insque a q) := by
  intro e he hef
  unfold SecondChance.insque at he
  split at he
  · obtain ⟨e', he', rfl⟩ := List.mem_map.mp he
    by_cases ha : e'.1 = a
    · rw [if_pos ha]
    · rw [if_neg ha] at hef ⊢
      exact h e' he' hef
  · rcases List.mem_append.mp he with he | he
    · exact h e he hef
    · rw [List.mem_singleton.mp he]

theorem MarkedIfIn.rmelem {a : α} {q : Queue α} (h : MarkedIfIn f q) :
    MarkedIfIn f (SecondChance.rmelem a q) := fun e he => h e (List.mem_filter.mp he).1

omit [DecidableEq α] in
theorem MarkedIfIn.not_victim {a : α} {q rest : Queue α} (h : MarkedIfIn f q)
    (hremque : remque q = some (a, rest)) (hother : ∃ e ∈ q, e.2 = false) : a ≠ f := by
  rintro rfl
  obtain ⟨e, he, hbit⟩ := hother
  obtain ⟨p, hp, ⟨r, rfl, -⟩ | ⟨rfl, -⟩⟩ := remque_cases hremque
  · cases h (a, false) (by simp) rfl
  · rcases List.mem_cons.mp he with rfl | he
    · cases hbit
    · rw [hp e he] at hbit
      cases hbit

theorem MarkedIfIn.run {q q' : Queue α} {seen seen' : List α} {calls : List (Call α)}
    (h : MarkedIfIn f q) (hno : Call.remque ∉ calls)
    (hrun : run traceStep (q, seen) calls = some (q', seen')) : MarkedIfIn f q' := by
  induction calls generalizing q with
  | nil =>
      cases hrun
      exact h
  | cons c calls ih =>
      rw [run_cons, Option.bind_eq_some_iff] at hrun
      obtain ⟨⟨q₁, seen₁⟩, hstep, hrest⟩ := hrun
      have hrestno : Call.remque ∉ calls := fun hmem => hno (List.mem_cons_of_mem _ hmem)
      cases c with
      | insque a =>
          cases hstep
          exact ih h.insque hrestno hrest
      | rmelem a =>
          cases hstep
          exact ih h.rmelem hrestno hrest
      | remque => exact absurd List.mem_cons_self hno

end SecondChance
