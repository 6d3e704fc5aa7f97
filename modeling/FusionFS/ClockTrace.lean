import FusionFS.ClockRun
import FusionFS.Lib.HandTrace

/-!
# What the victim pointer passes

The runs of the clock queue with a record of the cells whose reference bit `remque_clock` finds set
and clears, in the order in which it comes to them.
-/

namespace FusionFS

open ClockState SecondChance Transition

variable {A : Type} [DecidableEq A]

/-- `remqueLoop`, with the names of the cells whose bit is cleared. -/
def remqueLoopTraced : Nat → ClockState A → Option (List Bytes × Bytes × ClockState A)
  | 0, _ => none
  | fuel + 1, s => do
      let victim ← s.victim
      let i ← s.heap victim
      if i.refBit = false then
        let s ← remQ victim s
        some ([], i.fname, s)
      else
        let s ← s.setRefBit victim false
        let (passed, r) ← remqueLoopTraced fuel { s with victim := some i.next }
        some (i.fname :: passed, r)

/-- `remqueClock`, with the names of the cells whose bit is cleared. -/
def remqueClockTraced (fuel : Nat) (s : ClockState A) :
    Option (List Bytes × Bytes × ClockState A) := do
  let s := if s.victim = none then { s with victim := s.clockHead } else s
  let victim ← s.victim
  let i ← s.heap victim
  if victim = i.next then
    let s ← remQ victim s
    some ([], i.fname, s)
  else
    let (passed, fname, s) ← remqueLoopTraced fuel s
    let _ ← logQueue fuel s
    some (passed, fname, s)

theorem remqueLoopTraced_erase (fuel : Nat) (s : ClockState A) :
    (remqueLoopTraced fuel s).map Prod.snd = remqueLoop fuel s := by
  induction fuel generalizing s with
  | zero => rfl
  | succ fuel ih =>
      cases hv : s.victim with
      | none => simp [remqueLoopTraced, remqueLoop, hv]
      | some victim =>
          cases hi : s.heap victim with
          | none => simp [remqueLoopTraced, remqueLoop, hv, hi]
          | some i =>
              simp only [remqueLoopTraced, remqueLoop, hv, hi, Option.bind_eq_bind, Option.bind_some]
              split
              · cases remQ victim s <;> rfl
              · cases s.setRefBit victim false with
                | none => rfl
                | some s₁ =>
                    rw [Option.bind_some, Option.bind_some, ← ih, Option.map_bind,
                      Option.map_eq_bind]
                    rfl

/-- The record changes nothing that the function does. -/
theorem remqueClockTraced_erase (fuel : Nat) (s : ClockState A) :
    (remqueClockTraced fuel s).map Prod.snd = remqueClock fuel s := by
  simp only [remqueClockTraced, remqueClock, Option.bind_eq_bind]
  generalize (if s.victim = none then { s with victim := s.clockHead } else s) = s₀
  cases s₀.victim with
  | none => rfl
  | some victim =>
      cases hi : s₀.heap victim with
      | none => simp [hi]
      | some i =>
          simp only [hi, Option.bind_some]
          split
          · cases remQ victim s₀ <;> rfl
          · rw [← remqueLoopTraced_erase, Option.map_bind, Option.bind_map]
            refine Option.bind_congr fun r _ => ?_
            rw [Function.comp_apply, Option.map_bind]
            rfl

/-- The ring clears the bits that the queue clears, in the same order. -/
theorem remqueLoopTraced_spec {s : ClockState A} {p w : List A} {view rest : Queue Bytes}
    {fuel : Nat} {a : A} {passed : List Bytes} {fname : Bytes}
    (h : Represents s p (a :: w) view) (hv : s.victim = some a)
    (htrace : evictTrace fuel view = some (passed, fname, rest)) :
    ∃ s', remqueLoopTraced fuel s = some (passed, fname, s') := by
  induction fuel generalizing s p a w view passed with
  | zero => cases htrace
  | succ fuel ih =>
      obtain ⟨⟨name, bit⟩, tail, rfl, hcell, hnamed⟩ := h.front
      obtain ⟨i, hi, hpair⟩ := Option.map_eq_some_iff.mp hcell
      obtain ⟨rfl, rfl⟩ := Prod.mk.inj hpair
      cases hbit : i.refBit with
      | false =>
          obtain ⟨s', p', q', hs', -⟩ := h.remove (by simp) hnamed
          rw [hbit] at htrace
          cases htrace
          exact ⟨s', by simp [remqueLoopTraced, hv, hi, hbit, hs']⟩
      | true =>
          rw [hbit] at h htrace
          obtain ⟨⟨passed', r⟩, hrest, heq⟩ := Option.map_eq_some_iff.mp htrace
          cases heq
          obtain ⟨s₁, p', q', hs₁, hrep, v, w', rfl⟩ := h.rotate hi
          have hvictim : some i.next = some v := by
            rcases hrep.hand with ⟨hnone, -⟩ | ⟨v', w'', hcons, hv'⟩
            · cases hnone
            · obtain ⟨rfl, -⟩ := List.cons_eq_cons.mp hcons
              exact hv'
          obtain ⟨s', hs'⟩ := ih hrep hvictim hrest
          exact ⟨s', by simp [remqueLoopTraced, hv, hi, hbit, hs₁, hs']⟩

theorem remqueClockTraced_spec {s : ClockState A} {p q : List A} {view : Queue Bytes}
    (h : Represents s p q view) (hne : view ≠ []) {fuel : Nat} (hfuel : view.length < fuel) :
    ∃ passed fname rest s' p' q', remqueTrace view = some (passed, fname, rest) ∧
      remqueClockTraced fuel s = some (passed, fname, s') ∧ Represents s' p' q' rest := by
  obtain ⟨fname, rest, s', p', q', hremque, hs', hrep'⟩ := remqueClock_spec h hne hfuel
  obtain ⟨⟨passed, r⟩, htrace⟩ : ∃ r, remqueTrace view = some r := by
    have herase := remqueTrace_erase view
    rw [hremque] at herase
    exact Option.isSome_iff_exists.mp (by rw [← Option.isSome_map, herase]; rfl)
  have hvictim : r = (fname, rest) := by
    have herase := remqueTrace_erase view
    rw [htrace, hremque] at herase
    exact Option.some.inj herase
  subst hvictim
  refine ⟨passed, fname, rest, s', p', q', htrace, ?_, hrep'⟩
  have hcode := remqueClockTraced_erase fuel s
  rw [hs'] at hcode
  obtain ⟨⟨passed', r⟩, htraced, heq⟩ := Option.map_eq_some_iff.mp hcode
  dsimp only at heq
  subst heq
  suffices hpassed : passed' = passed by rw [htraced, hpassed]
  obtain ⟨a, p₀, w, hrep, hv⟩ := h.pointed hne
  rw [remqueClockTraced] at htraced
  generalize (if s.victim = none then { s with victim := s.clockHead } else s) = s₀
    at hrep hv htraced
  obtain ⟨e, tail, rfl, hcell, -⟩ := hrep.front
  obtain ⟨i, hi, rfl⟩ := Option.map_eq_some_iff.mp hcell
  simp only [hv, hi, Option.bind_eq_bind, Option.bind_some] at htraced
  by_cases hself : a = i.next
  · obtain ⟨rfl, rfl⟩ := hrep.ring.alone hi hself
    have htail : tail = [] := by simpa using hrep.length_eq
    subst htail
    cases htrace
    rw [if_pos hself] at htraced
    obtain ⟨s₁, -, heq⟩ := Option.bind_eq_some_iff.mp htraced
    cases heq
    rfl
  · have hmany : tail ≠ [] := by
      rintro rfl
      have hlen := hrep.length_eq
      rw [List.length_append, List.length_cons, List.length_singleton] at hlen
      have hnext := hrep.ring.head?_next hi
      rw [List.length_eq_zero_iff.mp (show p₀.length = 0 by omega),
        List.length_eq_zero_iff.mp (show w.length = 0 by omega)] at hnext
      exact hself (Option.some.inj hnext)
    obtain ⟨e, more, rfl⟩ := List.exists_cons_of_ne_nil hmany
    obtain ⟨s₁, hs₁⟩ := remqueLoopTraced_spec hrep hv (evictTrace_mono htrace hfuel)
    rw [if_neg hself, hs₁, Option.bind_some] at htraced
    obtain ⟨log, -, heq⟩ := Option.bind_eq_some_iff.mp htraced
    cases heq
    rfl

/-! ### Runs -/

/-- One call on the mount state and the record of the bits cleared so far. -/
def tracedStep (fuel : Nat) :
    ClockState A × List Bytes → ClockOp A → Option (ClockState A × List Bytes)
  | (s, seen), .insque elem junk fname => (insqueClock fuel elem junk fname s).map (·, seen)
  | (s, seen), .rmelem fname => (rmelemClock fuel fname s).map (·, seen)
  | (s, seen), .remque => (remqueClockTraced fuel s).map fun r => (r.2.2, seen ++ r.1)

def ClockOp.call : ClockOp A → Call Bytes
  | .insque _ _ fname => .insque fname
  | .rmelem fname => .rmelem fname
  | .remque => .remque

/-- A cell in the queue, with its reference bit. -/
def HasCell (s : ClockState A) (fname : Bytes) (bit : Bool) : Prop :=
  ∃ a, s.content a = some (fname, bit)

variable {s : ClockState A} {p q : List A} {view : Queue Bytes} {fuel : Nat}

omit [DecidableEq A] in
theorem Represents.hasCell_iff (h : Represents s p q view) {fname : Bytes} {bit : Bool} :
    HasCell s fname bit ↔ (fname, bit) ∈ view := by
  constructor
  · rintro ⟨a, ha⟩
    have hlive : a ∈ q ++ p := by
      have hin := (h.ring.live a).mp (by rw [ha]; rfl)
      simpa [or_comm] using hin
    have hmem : s.content a ∈ view.map some := h.reading ▸ List.mem_map_of_mem hlive
    rw [ha] at hmem
    simpa using hmem
  · intro hmem
    have hsome : some (fname, bit) ∈ (q ++ p).map s.content :=
      h.reading ▸ List.mem_map_of_mem hmem
    obtain ⟨a, -, ha⟩ := List.mem_map.mp hsome
    exact ⟨a, ha⟩

omit [DecidableEq A] in
theorem Represents.hasCell_iff_mem_names (h : Represents s p q view) {fname : Bytes} :
    (∃ bit, HasCell s fname bit) ↔ fname ∈ names view := by
  simp only [h.hasCell_iff, names, List.mem_map, Prod.exists, exists_and_right, exists_eq_right]

/-- One allowed call does on the ring what it does on the queue, record included. -/
theorem tracedStep_spec (h : Represents s p q view) (hfuel : view.length < fuel)
    (seen : List Bytes) {op : ClockOp A} (hop : Allowed (s, seen) op) :
    ∃ s' p' q' view' seen', tracedStep fuel (s, seen) op = some (s', seen') ∧
      traceStep (view, seen) op.call = some (view', seen') ∧ Represents s' p' q' view' ∧
      view'.length ≤ view.length + 1 := by
  cases op with
  | insque elem junk fname =>
      obtain ⟨hfresh, hshort⟩ := hop
      obtain ⟨s', p', q', hs', hrep⟩ :=
        insqueClock_spec h hfuel (Option.isNone_iff_eq_none.mp hfresh) junk hshort
      exact ⟨s', p', q', _, seen, by simp [tracedStep, hs'], rfl, hrep,
        length_insque_le fname view⟩
  | rmelem fname =>
      obtain ⟨s', p', q', hs', hrep⟩ := rmelemClock_spec h hfuel.le fname
      refine ⟨s', p', q', _, seen, by simp [tracedStep, hs'], rfl, hrep, ?_⟩
      exact (List.length_filter_le _ _).trans (Nat.le_succ _)
  | remque =>
      have hne : view ≠ [] := by
        rintro rfl
        have hnull := h.clockQueue.head_null.mpr rfl
        simp [Allowed, hnull] at hop
      obtain ⟨passed, fname, rest, s', p', q', htrace, hs', hrep⟩ :=
        remqueClockTraced_spec h hne hfuel
      refine ⟨s', p', q', rest, seen ++ passed, by simp [tracedStep, hs'],
        by simp [traceStep, ClockOp.call, htrace], hrep, ?_⟩
      have herase := remqueTrace_erase view
      rw [htrace, Option.map_some] at herase
      have := length_of_remque herase.symm
      omega

theorem tracedRun_spec {ops : List (ClockOp A)} (h : Represents s p q view)
    (hfuel : view.length + ops.length < fuel) (seen : List Bytes)
    (hallowed : Guarded (tracedStep fuel) Allowed (s, seen) ops) :
    ∃ s' p' q' view' seen', run (tracedStep fuel) (s, seen) ops = some (s', seen') ∧
      run traceStep (view, seen) (ops.map ClockOp.call) = some (view', seen') ∧
      Represents s' p' q' view' ∧ view'.length ≤ view.length + ops.length ∧
      ∀ fname, Always (tracedStep fuel) (fun s => ∃ bit, HasCell s.1 fname bit) (s, seen) ops →
        Always traceStep (fun s => fname ∈ names s.1) (view, seen) (ops.map ClockOp.call) := by
  induction ops generalizing s p q view seen with
  | nil =>
      exact ⟨s, p, q, view, seen, rfl, rfl, h, Nat.le_refl _,
        fun fname hstay => h.hasCell_iff_mem_names.mp hstay⟩
  | cons op ops ih =>
      rw [List.length_cons] at hfuel
      obtain ⟨s₁, p₁, q₁, view₁, seen₁, hstep, hcall, hrep, hlen⟩ :=
        tracedStep_spec h (show view.length < fuel by omega) seen hallowed.1
      have hfuel₁ : view₁.length + ops.length < fuel := by omega
      obtain ⟨s', p', q', view', seen', hrun, hqueue, hrep', hlen', hstay⟩ :=
        ih hrep hfuel₁ seen₁ (hallowed.tail hstep)
      refine ⟨s', p', q', view', seen', ?_, ?_, hrep', ?_, ?_⟩
      · rw [run_cons, hstep, Option.bind_some, hrun]
      · rw [List.map_cons, run_cons, hcall, Option.bind_some, hqueue]
      · rw [List.length_cons]
        omega
      · intro fname hall
        refine ⟨h.hasCell_iff_mem_names.mp hall.1, fun t ht => ?_⟩
        obtain rfl : (view₁, seen₁) = t := Option.some.inj (hcall.symm.trans ht)
        exact hstay fname (hall.2 _ hstep)

/-- A touch of `f`, calls after it, and an eviction: when the victim is `f` and was not touched in
between, the bit of every other file that stays has been cleared behind the bit of `f`; and when
there was no other eviction in between, the victim is not `f` as long as some other bit is clear. -/
theorem clock_secondChance (fuel : Nat) (pre mid : List (ClockOp A)) (elem : A) (junk : Inode A)
    (f : Bytes) (hfuel : pre.length + mid.length + 2 < fuel)
    (hallowed : Guarded (tracedStep fuel) Allowed (ClockState.empty, [])
      (pre ++ .insque elem junk f :: (mid ++ [.remque]))) :
    ∃ s₁ s₂ s₃ victim seen before passed,
      run (tracedStep fuel) (ClockState.empty, []) (pre ++ [.insque elem junk f]) =
        some (s₁, seen) ∧
      run (tracedStep fuel) (s₁, seen) mid = some (s₂, seen ++ before) ∧
      remqueClockTraced fuel s₂ = some (passed, victim, s₃) ∧
      (victim = f → (∀ op ∈ mid, op.call ≠ .insque f) → ∀ g, g ≠ f →
        Always (tracedStep fuel) (fun s => ∃ bit, HasCell s.1 g bit) (s₁, seen) (mid ++ [.remque]) →
        [f, g].Sublist (before ++ passed)) ∧
      ((∀ op ∈ mid, op.call ≠ .remque) → (∃ g, HasCell s₂ g false) → victim ≠ f) := by
  have hpre : Guarded (tracedStep fuel) Allowed (ClockState.empty, []) pre := hallowed.of_append
  obtain ⟨s₀, p₀, q₀, view₀, seen, hrun₀, -, hrep₀, hlen₀, -⟩ :=
    tracedRun_spec Represents.empty (by simp; omega) [] hpre
  rw [List.length_nil, Nat.zero_add] at hlen₀
  have hrest := hallowed.reached hrun₀
  obtain ⟨s₁, p₁, q₁, view₁, seen₁, hstep, hcall, hrep₁, hlen₁⟩ :=
    tracedStep_spec hrep₀ (show view₀.length < fuel by omega) seen hrest.1
  obtain ⟨rfl, rfl⟩ := Prod.mk.inj (Option.some.inj hcall)
  have hmid := hrest.tail hstep
  obtain ⟨s₂, p₂, q₂, view₂, seen₂, hrun₂, hqueue₂, hrep₂, hlen₂, hstay₂⟩ :=
    tracedRun_spec hrep₁ (by omega) seen hmid.of_append
  have hlast := hmid.reached hrun₂
  have hne : view₂ ≠ [] := by
    rintro rfl
    have hnull := hrep₂.clockQueue.head_null.mpr rfl
    have hop := hlast.1
    simp [Allowed, hnull] at hop
  obtain ⟨passed, victim, rest, s₃, p₃, q₃, htrace, hs₃, hrep₃⟩ :=
    remqueClockTraced_spec hrep₂ hne (show view₂.length < fuel by omega)
  obtain ⟨before, rfl⟩ := exists_seen_append hqueue₂
  have hmarked := mem_insque_self f view₀
  have hnodup := hrep₁.distinct
  refine ⟨s₁, s₂, s₃, victim, seen, before, passed, ?_, hrun₂, hs₃, ?_, ?_⟩
  · rw [run_append, hrun₀, Option.bind_some, run_cons, hstep]
    rfl
  · rintro rfl hno g hg hstay
    obtain ⟨s', p', q', view', seen', -, -, -, -, hstay'⟩ :=
      tracedRun_spec hrep₁ (by simp; omega) seen hmid
    have hqueue := hstay' g hstay
    rw [List.map_append] at hqueue
    have hout : Call.insque victim ∉ mid.map ClockOp.call := by
      intro hmem
      obtain ⟨op, hop, heq⟩ := List.mem_map.mp hmem
      exact hno op hop heq
    obtain ⟨more, heq, hsub⟩ := second_look hmarked hnodup hg hout hqueue hqueue₂ htrace
    rw [List.append_cancel_left heq]
    exact hsub
  · intro hno hother
    have hout : Call.remque ∉ mid.map ClockOp.call := by
      intro hmem
      obtain ⟨op, hop, heq⟩ := List.mem_map.mp hmem
      exact hno op hop heq
    have hstart : MarkedIfIn f (insque f view₀) := by
      intro e he hef
      exact congrArg Prod.snd (List.inj_on_of_nodup_map hnodup he hmarked hef)
    have herase := remqueTrace_erase view₂
    rw [htrace, Option.map_some] at herase
    obtain ⟨g, hg⟩ := hother
    exact (hstart.run hout hqueue₂).not_victim herase.symm ⟨_, hrep₂.hasCell_iff.mp hg, rfl⟩

/-- Three files come in and the second is touched again. -/
def touchedCalls : List (ClockOp Nat) :=
  [.insque 0 ⟨0, 0, [], false⟩ (cstr "/ssd/b"), .insque 1 ⟨0, 0, [], false⟩ (cstr "/ssd/a"),
    .insque 2 ⟨0, 0, [], false⟩ (cstr "/ssd/c")]

/-- The turn that evicts the first file clears all bits; the next eviction takes the second. -/
example : (run (tracedStep 8) (ClockState.empty, []) (touchedCalls ++
    [.insque 3 ⟨0, 0, [], false⟩ (cstr "/ssd/a"), .remque])).map Prod.snd =
      some [cstr "/ssd/b", cstr "/ssd/a", cstr "/ssd/c"] := by decide

theorem clock_secondChance_touched :
    ∃ s₁ s₂ s₃ victim seen before passed,
      run (tracedStep 8) (ClockState.empty, [])
        (touchedCalls ++ [.insque 3 ⟨0, 0, [], false⟩ (cstr "/ssd/a")]) = some (s₁, seen) ∧
      run (tracedStep 8) (s₁, seen) [.remque] = some (s₂, seen ++ before) ∧
      remqueClockTraced 8 s₂ = some (passed, victim, s₃) ∧
      (victim = cstr "/ssd/a" →
        (∀ op ∈ ([.remque] : List (ClockOp Nat)), op.call ≠ .insque (cstr "/ssd/a")) →
        ∀ g, g ≠ cstr "/ssd/a" →
        Always (tracedStep 8) (fun s => ∃ bit, HasCell s.1 g bit) (s₁, seen) [.remque, .remque] →
        [cstr "/ssd/a", g].Sublist (before ++ passed)) ∧
      ((∀ op ∈ ([.remque] : List (ClockOp Nat)), op.call ≠ .remque) →
        (∃ g, HasCell s₂ g false) → victim ≠ cstr "/ssd/a") :=
  clock_secondChance 8 touchedCalls [.remque] 3 ⟨0, 0, [], false⟩ (cstr "/ssd/a") (by decide)
    (by decide)

end FusionFS
