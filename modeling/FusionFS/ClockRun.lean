import FusionFS.ClockRefinement
import FusionFS.Lib.Run

/-!
# Runs of the clock queue

Any sequence of the three operations, from the state the mount starts in.
-/

namespace FusionFS

open ClockState SecondChance Transition

variable {A : Type} [DecidableEq A]

/-- A call, with what its environment supplies: for an insertion the cell `malloc` returns and what
the cell held before. -/
inductive ClockOp (A : Type) where
  | insque (elem : A) (junk : Inode A) (fname : Bytes)
  | rmelem (fname : Bytes)
  | remque

/-- One call on the mount state and the names returned so far. -/
def clockStep (fuel : Nat) :
    ClockState A × List Bytes → ClockOp A → Option (ClockState A × List Bytes)
  | (s, out), .insque elem junk fname => (insqueClock fuel elem junk fname s).map (·, out)
  | (s, out), .rmelem fname => (rmelemClock fuel fname s).map (·, out)
  | (s, out), .remque => (remqueClock fuel s).map fun r => (r.2, out ++ [r.1])

/-- The same call on the queue. -/
def queueStep : Queue Bytes × List Bytes → ClockOp A → Queue Bytes × List Bytes
  | (view, out), .insque _ _ fname => (insque fname view, out)
  | (view, out), .rmelem fname => (rmelem fname view, out)
  | (view, out), .remque =>
      match remque view with
      | some (fname, rest) => (rest, out ++ [fname])
      | none => (view, out)

/-- What callers and `malloc` guarantee: names fit in a cell, new cells are not in use, and
`remque_clock` is called on a non-empty queue. -/
def Allowed (s : ClockState A × List Bytes) : ClockOp A → Prop
  | .insque elem _ fname => (s.1.heap elem).isNone ∧ fname.length < nameMax
  | .rmelem fname => fname.length < nameMax
  | .remque => s.1.clockHead.isSome

instance (s : ClockState A × List Bytes) (op : ClockOp A) : Decidable (Allowed s op) := by
  cases op <;> unfold Allowed <;> infer_instance

/-- The mount state is a ring that reads, from the hand or else from the head, as the queue. -/
structure ClockQueue (s : ClockState A) (view : Queue Bytes) : Prop where
  ring : ∃ cells, cells.Nodup ∧ cells.length = view.length ∧ (∀ a, (s.heap a).isSome ↔ a ∈ cells) ∧
    Ring.Cycle s.links cells
  closed : ∀ a, s.clockTail = some a → s.links.next a = s.clockHead
  head_live : ∀ a, s.clockHead = some a → (s.heap a).isSome
  tail_live : ∀ a, s.clockTail = some a → (s.heap a).isSome
  hand_live : ∀ a, s.victim = some a → (s.heap a).isSome
  head_null : s.clockHead = none ↔ view = []
  tail_null : s.clockTail = none ↔ view = []
  distinct : (names view).Nodup
  reading : ∀ a, s.victim.or s.clockHead = some a →
    (Ring.walk s.links.next view.length a).map (List.map s.content) = some (view.map some)

namespace Represents

variable {s : ClockState A} {p q : List A} {view : Queue Bytes}

omit [DecidableEq A] in
theorem mem_start (h : Represents s p q view) {a : A} (ha : s.victim.or s.clockHead = some a) :
    ∃ l, q ++ p = a :: l := by
  rcases h.hand with ⟨hv, rfl⟩ | ⟨v, w, rfl, hv⟩
  · have hhead := h.ring.head
    rw [hv, Option.none_or] at ha
    rw [ha, List.nil_append] at hhead
    obtain ⟨l, rfl⟩ := List.head?_eq_some_iff.mp hhead.symm
    exact ⟨l, List.append_nil _⟩
  · rw [hv, Option.some_or, Option.some.injEq] at ha
    exact ⟨w ++ p, by rw [ha, List.cons_append]⟩

omit [DecidableEq A] in
theorem hand_mem (h : Represents s p q view) {a : A} (ha : s.victim = some a) : a ∈ p ++ q := by
  rcases h.hand with ⟨hv, -⟩ | ⟨v, w, rfl, hv⟩
  · rw [hv] at ha
    cases ha
  · rw [hv, Option.some.injEq] at ha
    simp [ha]

omit [DecidableEq A] in
theorem nil_iff (h : Represents s p q view) : p ++ q = [] ↔ view = [] := by
  rw [← List.length_eq_zero_iff, h.length_eq, List.length_eq_zero_iff]

omit [DecidableEq A] in
theorem clockQueue (h : Represents s p q view) : ClockQueue s view where
  ring := ⟨p ++ q, h.ring.nodup, h.length_eq,
    fun a => (isSome_heap_iff s a).trans (h.ring.live a), h.ring.cycle⟩
  closed := by
    intro a ha
    rw [h.ring.tail] at ha
    cases hcells : p ++ q with
    | nil => simp [hcells] at ha
    | cons x l =>
        have hring := h.ring
        rw [hcells] at ha hring
        rw [hring.head, List.head?_cons]
        exact (hring.cycle.last_linked_head ha).1
  head_live := by
    intro a ha
    rw [h.ring.head] at ha
    exact (isSome_heap_iff s a).mpr ((h.ring.live a).mpr (List.mem_of_head? ha))
  tail_live := by
    intro a ha
    rw [h.ring.tail] at ha
    exact (isSome_heap_iff s a).mpr ((h.ring.live a).mpr (List.mem_of_getLast? ha))
  hand_live := fun a ha => (isSome_heap_iff s a).mpr ((h.ring.live a).mpr (h.hand_mem ha))
  head_null := by rw [h.ring.head, List.head?_eq_none_iff, h.nil_iff]
  tail_null := by rw [h.ring.tail, List.getLast?_eq_none_iff, h.nil_iff]
  distinct := h.distinct
  reading := by
    intro a ha
    obtain ⟨l, hl⟩ := h.mem_start ha
    have hcycle : Ring.Cycle s.links (a :: l) := hl ▸ h.ring.cycle.rotate
    have hlen : view.length = (a :: l).length := by
      rw [← hl, ← h.length_eq, List.length_append, List.length_append, Nat.add_comm]
    rw [hlen, hcycle.walk_eq, Option.map_some, ← hl, h.reading]

end Represents

omit [DecidableEq A] in
theorem Represents.empty : Represents (ClockState.empty : ClockState A) [] [] [] :=
  ⟨RingState.empty, Or.inl ⟨rfl, rfl⟩, rfl, List.nodup_nil⟩

theorem length_insque_le (fname : Bytes) (view : Queue Bytes) :
    (insque fname view).length ≤ view.length + 1 := by
  rw [insque]
  split
  · rw [List.length_map]
    exact Nat.le_succ _
  · rw [List.length_append, List.length_singleton]

/-- One allowed call does on the ring what it does on the queue, which grows by one at most. -/
theorem clockStep_spec {fuel : Nat} {s : ClockState A} {p q : List A} {view : Queue Bytes}
    (h : Represents s p q view) (hfuel : view.length < fuel) (out : List Bytes) {op : ClockOp A}
    (hop : Allowed (s, out) op) :
    ∃ s' p' q' view' out', clockStep fuel (s, out) op = some (s', out') ∧
      queueStep (view, out) op = (view', out') ∧ Represents s' p' q' view' ∧
      view'.length ≤ view.length + 1 := by
  cases op with
  | insque elem junk fname =>
      obtain ⟨hfresh, hshort⟩ := hop
      obtain ⟨s', p', q', hs', hrep⟩ :=
        insqueClock_spec h hfuel (Option.isNone_iff_eq_none.mp hfresh) junk hshort
      exact ⟨s', p', q', _, out, by simp [clockStep, hs'], rfl, hrep, length_insque_le fname view⟩
  | rmelem fname =>
      obtain ⟨s', p', q', hs', hrep⟩ := rmelemClock_spec h hfuel.le fname
      refine ⟨s', p', q', _, out, by simp [clockStep, hs'], rfl, hrep, ?_⟩
      exact (List.length_filter_le _ _).trans (Nat.le_succ _)
  | remque =>
      have hne : view ≠ [] := by
        rintro rfl
        have hnull := h.clockQueue.head_null.mpr rfl
        simp [Allowed, hnull] at hop
      obtain ⟨fname, rest, s', p', q', hremque, hs', hrep⟩ := remqueClock_spec h hne hfuel
      refine ⟨s', p', q', rest, out ++ [fname], by simp [clockStep, hs'], ?_, hrep, ?_⟩
      · simp [queueStep, hremque]
      · have := length_of_remque hremque
        omega

theorem clockRun_spec {fuel : Nat} {s : ClockState A} {p q : List A} {view : Queue Bytes}
    {ops : List (ClockOp A)} (h : Represents s p q view) (hfuel : view.length + ops.length < fuel)
    (out : List Bytes) (hallowed : Guarded (clockStep fuel) Allowed (s, out) ops) :
    ∃ s' p' q' view' out', run (clockStep fuel) (s, out) ops = some (s', out') ∧
      ops.foldl queueStep (view, out) = (view', out') ∧ Represents s' p' q' view' := by
  induction ops generalizing s p q view out with
  | nil => exact ⟨s, p, q, view, out, rfl, rfl, h⟩
  | cons op ops ih =>
      rw [List.length_cons] at hfuel
      obtain ⟨s₁, p₁, q₁, view₁, out₁, hstep, hqueue, hrep, hlen⟩ :=
        clockStep_spec h (show view.length < fuel by omega) out hallowed.1
      have hfuel₁ : view₁.length + ops.length < fuel := by omega
      obtain ⟨s', p', q', view', out', hrun, hfold, hrep'⟩ :=
        ih hrep hfuel₁ out₁ (hallowed.tail hstep)
      refine ⟨s', p', q', view', out', ?_, ?_, hrep'⟩
      · rw [run_cons, hstep, Option.bind_some, hrun]
      · rw [List.foldl_cons, hqueue, hfold]

/-- **The clock cache is a second-chance queue.** Every allowed sequence of calls runs, returns the
names the queue returns, and leaves a ring that reads as the queue; from there the search for a
victim takes at most one look more than there are cells. -/
theorem clock_refines_secondChance (fuel : Nat) (ops : List (ClockOp A)) (hfuel : ops.length < fuel)
    (hallowed : Guarded (clockStep fuel) Allowed (ClockState.empty, []) ops) :
    ∃ s view out, run (clockStep fuel) (ClockState.empty, []) ops = some (s, out) ∧
      ops.foldl queueStep ([], []) = (view, out) ∧ ClockQueue s view ∧
      (view ≠ [] → (remqueClock (view.length + 1) s).isSome) := by
  obtain ⟨s, p, q, view, out, hrun, hfold, hrep⟩ :=
    clockRun_spec Represents.empty (by simpa using hfuel) [] hallowed
  refine ⟨s, view, out, hrun, hfold, hrep.clockQueue, fun hne => ?_⟩
  obtain ⟨fname, rest, s', p', q', -, hs', -⟩ := remqueClock_spec hrep hne (Nat.lt_succ_self _)
  simp [hs']

/-- Three files come in, one is touched again and evicted from the middle of a turn, one is
removed. -/
def mixedCalls : List (ClockOp Nat) :=
  [.insque 0 ⟨0, 0, [], false⟩ (cstr "/ssd/a"), .insque 1 ⟨0, 0, [], false⟩ (cstr "/ssd/b"),
    .insque 2 ⟨0, 0, [], false⟩ (cstr "/ssd/c"), .remque, .insque 3 ⟨0, 0, [], false⟩ (cstr "/ssd/b"),
    .rmelem (cstr "/ssd/c"), .remque]

theorem clock_refines_secondChance_mixed :
    ∃ s view out, run (clockStep 8) (ClockState.empty, []) mixedCalls = some (s, out) ∧
      mixedCalls.foldl queueStep ([], []) = (view, out) ∧ ClockQueue s view ∧
      (view ≠ [] → (remqueClock (view.length + 1) s).isSome) :=
  clock_refines_secondChance 8 mixedCalls (by decide) (by decide)

end FusionFS
