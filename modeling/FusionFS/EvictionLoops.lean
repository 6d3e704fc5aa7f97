import FusionFS.ClockRun
import FusionFS.QueueOrder

/-!
# The eviction loops

`while (ssd_is_full() && head != NULL)` in `fusion_create`, `fusion_open` and `fusion_release`, on the
queue of each mode. An iteration takes an entry out of the queue, moves a file to the HDD and marks a
file in ZHT.
-/

namespace FusionFS.EvictionLoops

open SecondChance LinkedQueue

variable {A : Type} [DecidableEq A]

/-- The queue of the mode the mount was compiled for. -/
inductive CacheState (A : Type) where
  | clock (s : ClockState A)
  | lru (s : QueueState A)
  | lfu (s : QueueState A)

namespace CacheState

/-- `clock_head`, `lru_head` or `lfu_head` is `NULL`. -/
def headNull : CacheState A → Bool
  | clock s => s.clockHead.isNone
  | lru s => s.head.isNone
  | lfu s => s.head.isNone

def isClock : CacheState A → Bool
  | clock _ => true
  | lru _ => false
  | lfu _ => false

/-- The queue is well formed and holds these names. -/
def Holds : CacheState A → List Bytes → Prop
  | clock s, files => ∃ p q view, Represents s p q view ∧ names view = files
  | lru s, files => ∃ cells entries, Reads s cells [] entries ∧
      entries.map Prod.fst = files ∧ files.Nodup
  | lfu s, files => ∃ cells entries, Reads s cells [] entries ∧
      entries.map Prod.fst = files ∧ files.Nodup

end CacheState

/-- One iteration: the queue before and behind it, the path given to `move_file_ssd` and the path
given to `zht_update`. -/
structure Iteration (A : Type) where
  before : CacheState A
  after : CacheState A
  moved : Bytes
  marked : Bytes

/-- The body of the clock loop. -/
def clockBody (fuel : Nat) (s : ClockState A) : Option (ClockState A × Bytes × Bytes) := do
  let (fname, s) ← remqueClock fuel s
  some (s, fname, fname)

/-- The body of the LRU loop. `zht_update` gets the name in `lru_head` behind `remque_lru`. -/
def lruBody (s : QueueState A) : Option (QueueState A × Bytes × Bytes) := do
  let moved ← headName s
  let s ← remqueLru s
  let marked ← headName s
  some (s, moved, marked)

/-- The body of the LFU loop. -/
def lfuBody (s : QueueState A) : Option (QueueState A × Bytes × Bytes) := do
  let moved ← headName s
  let s ← remqueLfu s
  let marked ← headName s
  some (s, moved, marked)

def body (fuel : Nat) : CacheState A → Option (CacheState A × Bytes × Bytes)
  | .clock s => (clockBody fuel s).map fun r => (.clock r.1, r.2)
  | .lru s => (lruBody s).map fun r => (.lru r.1, r.2)
  | .lfu s => (lfuBody s).map fun r => (.lfu r.1, r.2)

/-- The loop with at most `bound` iterations. `full i` is what `ssd_is_full` answers when it is asked
for the time `i`; `none` stands for a `NULL` that is followed, and for a loop that goes on. -/
def evictLoop (fuel : Nat) (full : Nat → Bool) :
    Nat → Nat → CacheState A → Option (CacheState A × List (Iteration A))
  | bound, i, s =>
      if full i && !s.headNull then
        match bound with
        | 0 => none
        | bound + 1 => do
            let (s', moved, marked) ← body fuel s
            let (last, its) ← evictLoop fuel full bound (i + 1) s'
            some (last, ⟨s, s', moved, marked⟩ :: its)
      else some (s, [])

/-- The operations that evict. -/
inductive Caller where
  | create
  | open
  | release

/-- The loop is written out in each of them, the same way. -/
def Caller.loop (fuel : Nat) (full : Nat → Bool) (bound : Nat) (s : CacheState A) :
    Caller → Option (CacheState A × List (Iteration A))
  | .create => evictLoop fuel full bound 0 s
  | .open => evictLoop fuel full bound 0 s
  | .release => evictLoop fuel full bound 0 s

/-- An iteration takes out one entry, and moves and marks the file of that entry. -/
def Iteration.Agrees (it : Iteration A) : Prop :=
  ∃ files left, it.before.Holds files ∧ it.after.Holds left ∧ files.Perm (it.moved :: left) ∧
    it.marked = it.moved

/-- The loop ends after at most as many iterations as the queue has entries, with the SSD not full
or the queue empty, and each iteration agrees. -/
def LoopAgrees (call : Caller) (fuel : Nat) (full : Nat → Bool) (s : CacheState A)
    (files : List Bytes) : Prop :=
  ∃ last its, call.loop fuel full files.length s = some (last, its) ∧ its.length ≤ files.length ∧
    (full its.length = false ∨ last.headNull = true) ∧ ∀ it ∈ its, it.Agrees

/-! ### The bodies -/

section Bodies

variable {files : List Bytes}

omit [DecidableEq A] in
theorem reads_headNull {s : QueueState A} {cells : List A} {entries : List (Bytes × Nat)}
    (h : Reads s cells [] entries) : s.head.isNone = true ↔ entries = [] := by
  rw [Option.isNone_iff_eq_none, h.head, List.head?_eq_none_iff, ← List.length_eq_zero_iff,
    h.length_eq, List.length_eq_zero_iff]

omit [DecidableEq A] in
theorem headNull_iff {s : CacheState A} (h : s.Holds files) : s.headNull = true ↔ files = [] := by
  cases s with
  | clock s =>
      obtain ⟨p, q, view, hrep, rfl⟩ := h
      rw [CacheState.headNull, Option.isNone_iff_eq_none, hrep.clockQueue.head_null, names,
        List.map_eq_nil_iff]
  | lru s =>
      obtain ⟨cells, entries, hreads, rfl, -⟩ := h
      rw [CacheState.headNull, reads_headNull hreads, List.map_eq_nil_iff]
  | lfu s =>
      obtain ⟨cells, entries, hreads, rfl, -⟩ := h
      rw [CacheState.headNull, reads_headNull hreads, List.map_eq_nil_iff]

theorem clockBody_spec {s : ClockState A} (h : (CacheState.clock s).Holds files)
    (hne : files ≠ []) {fuel : Nat} (hfuel : files.length < fuel) :
    ∃ s' fname left, clockBody fuel s = some (s', fname, fname) ∧
      (CacheState.clock s').Holds left ∧ files.Perm (fname :: left) := by
  obtain ⟨p, q, view, hrep, rfl⟩ := h
  have hview : view ≠ [] := fun hnil => hne (by rw [hnil]; rfl)
  rw [names, List.length_map] at hfuel
  obtain ⟨fname, rest, s', p', q', hremque, hs', hrep'⟩ := remqueClock_spec hrep hview hfuel
  refine ⟨s', fname, names rest, ?_, ⟨p', q', rest, hrep', rfl⟩, names_perm_of_remque hremque⟩
  rw [clockBody, hs']
  rfl

/-- In the other two modes an iteration marks the entry behind the one it takes, if there is any. -/
theorem headBody_spec {s : QueueState A} {cells : List A} {entries : List (Bytes × Nat)}
    (h : Reads s cells [] entries) (hnodup : (entries.map Prod.fst).Nodup) :
    (do
      let moved ← headName s
      let s ← remqueHead s
      let marked ← headName s
      some (s, moved, marked)) = none ∨
    ∃ s' moved marked, (do
      let moved ← headName s
      let s ← remqueHead s
      let marked ← headName s
      some (s, moved, marked)) = some (s', moved, marked) ∧ marked ≠ moved := by
  cases entries with
  | nil =>
      have hnull := (reads_headNull h).mpr rfl
      rw [Option.isNone_iff_eq_none] at hnull
      simp [headName, hnull]
  | cons e rest =>
      obtain ⟨s', cells', hs', hreads⟩ := remqueHead_cyclic h hnodup e rest rfl
      rw [headName_eq h, Option.bind_eq_bind, Option.bind_some, hs', Option.bind_eq_bind,
        Option.bind_some]
      cases rest with
      | nil =>
          have hnull := (reads_headNull hreads).mpr rfl
          rw [Option.isNone_iff_eq_none] at hnull
          simp [headName, hnull]
      | cons next rest =>
          rw [headName_eq hreads]
          refine .inr ⟨s', e.1, next.1, rfl, ?_⟩
          rw [List.map_cons, List.map_cons] at hnodup
          exact fun heq => (List.nodup_cons.mp hnodup).1 (heq ▸ List.mem_cons_self)

theorem body_disagrees {s : CacheState A} (h : s.Holds files) (hclock : s.isClock = false)
    (fuel : Nat) :
    body fuel s = none ∨ ∃ s' moved marked, body fuel s = some (s', moved, marked) ∧
      marked ≠ moved := by
  cases s with
  | clock s => cases hclock
  | lru s =>
      obtain ⟨cells, entries, hreads, rfl, hnodup⟩ := h
      rcases headBody_spec hreads hnodup with hnone | ⟨s', moved, marked, hs', hne⟩
      · exact .inl (congrArg (Option.map _) hnone)
      · exact .inr ⟨.lru s', moved, marked, congrArg (Option.map _) hs', hne⟩
  | lfu s =>
      obtain ⟨cells, entries, hreads, rfl, hnodup⟩ := h
      rcases headBody_spec hreads hnodup with hnone | ⟨s', moved, marked, hs', hne⟩
      · exact .inl (congrArg (Option.map _) hnone)
      · exact .inr ⟨.lfu s', moved, marked, congrArg (Option.map _) hs', hne⟩

end Bodies

/-! ### The loops -/

theorem Caller.loop_eq (call : Caller) (fuel : Nat) (full : Nat → Bool) (bound : Nat)
    (s : CacheState A) : call.loop fuel full bound s = evictLoop fuel full bound 0 s := by
  cases call <;> rfl

theorem evictLoop_clock {s : ClockState A} {files : List Bytes} {fuel bound : Nat}
    {full : Nat → Bool} (i : Nat) (h : (CacheState.clock s).Holds files)
    (hfuel : files.length < fuel) (hbound : files.length = bound) :
    ∃ last its, evictLoop fuel full bound i (.clock s) = some (last, its) ∧ its.length ≤ bound ∧
      (full (i + its.length) = false ∨ last.headNull = true) ∧ ∀ it ∈ its, it.Agrees := by
  induction bound generalizing s files i with
  | zero =>
      obtain rfl := List.length_eq_zero_iff.mp hbound
      have hnull := (headNull_iff h).mpr rfl
      refine ⟨.clock s, [], ?_, Nat.le_refl _, .inr hnull, by simp⟩
      rw [evictLoop, hnull]
      simp
  | succ bound ih =>
      have hne : files ≠ [] := fun hnil => by simp [hnil] at hbound
      have hlive : (CacheState.clock s).headNull = false := by
        rw [Bool.eq_false_iff]
        exact fun hnull => hne ((headNull_iff h).mp hnull)
      cases hfull : full i with
      | false =>
          refine ⟨.clock s, [], ?_, Nat.zero_le _, .inl hfull, by simp⟩
          rw [evictLoop, hfull]
          simp
      | true =>
          obtain ⟨s', fname, left, hs', hleft, hperm⟩ := clockBody_spec h hne hfuel
          have hlen := hperm.length_eq
          rw [List.length_cons] at hlen
          obtain ⟨last, its, hloop, hcount, hend, hall⟩ :=
            ih (i + 1) hleft (by omega) (by omega)
          refine ⟨last, ⟨.clock s, .clock s', fname, fname⟩ :: its, ?_, Nat.succ_le_succ hcount, ?_, ?_⟩
          · rw [evictLoop, hfull, hlive]
            simp only [Bool.not_false, Bool.and_self, if_true, body, hs', Option.map_some,
              Option.bind_eq_bind, Option.bind_some, hloop]
          · rw [List.length_cons, ← Nat.add_assoc, Nat.add_right_comm]
            exact hend
          · intro it hit
            rcases List.mem_cons.mp hit with rfl | hit
            · exact ⟨files, left, h, hleft, hperm, rfl⟩
            · exact hall it hit

/-- A loop of the other two modes that runs at all follows `NULL` or marks a file it did not move. -/
theorem not_loopAgrees_of_run {call : Caller} {fuel : Nat} {full : Nat → Bool} {s : CacheState A}
    {files : List Bytes} (h : s.Holds files) (hclock : s.isClock = false) (hfull : full 0 = true)
    (hne : files ≠ []) : ¬ LoopAgrees call fuel full s files := by
  rintro ⟨last, its, hloop, -, -, hall⟩
  rw [call.loop_eq] at hloop
  have hlive : s.headNull = false := by
    rw [Bool.eq_false_iff]
    exact fun hnull => hne ((headNull_iff h).mp hnull)
  obtain ⟨bound, hbound⟩ : ∃ bound, files.length = bound + 1 :=
    Nat.exists_eq_succ_of_ne_zero fun hzero => hne (List.length_eq_zero_iff.mp hzero)
  rw [hbound, evictLoop, hfull, hlive] at hloop
  simp only [Bool.not_false, Bool.and_self, if_true, Option.bind_eq_bind] at hloop
  rcases body_disagrees h hclock fuel with hnone | ⟨s', moved, marked, hs', hdiff⟩
  · rw [hnone] at hloop
    cases hloop
  · rw [hs', Option.bind_some, Option.bind_eq_some_iff] at hloop
    obtain ⟨r, -, heq⟩ := hloop
    cases heq
    obtain ⟨-, -, -, -, -, hsame⟩ := hall _ List.mem_cons_self
    exact hdiff hsame

/-- **The loops agree** exactly in the clock mode, and where they do not run at all. -/
theorem loopAgrees_iff (call : Caller) (fuel : Nat) (full : Nat → Bool) (s : CacheState A)
    (files : List Bytes) (h : s.Holds files) (hfuel : files.length < fuel) :
    LoopAgrees call fuel full s files ↔ s.isClock = true ∨ full 0 = false ∨ files = [] := by
  constructor
  · intro hagrees
    by_contra hnot
    obtain ⟨hclock, hfull, hne⟩ : s.isClock = false ∧ full 0 = true ∧ files ≠ [] := by
      simpa [not_or] using hnot
    exact not_loopAgrees_of_run h hclock hfull hne hagrees
  · intro hwhen
    unfold LoopAgrees
    rw [call.loop_eq]
    by_cases hrun : full 0 = false ∨ files = []
    · -- the condition of the loop fails at once
      refine ⟨s, [], ?_, Nat.zero_le _, ?_, by simp⟩
      · have hstop : (full 0 && !s.headNull) = false := by
          rcases hrun with hfull | hnil
          · rw [hfull, Bool.false_and]
          · rw [(headNull_iff h).mpr hnil, Bool.not_true, Bool.and_false]
        unfold evictLoop
        rw [hstop]
        rfl
      · exact hrun.imp_right (headNull_iff h).mpr
    · cases s with
      | clock s =>
          obtain ⟨last, its, hloop, hcount, hend, hall⟩ :=
            @evictLoop_clock _ _ _ _ _ _ full 0 h hfuel rfl
          rw [Nat.zero_add] at hend
          exact ⟨last, its, hloop, hcount, hend, hall⟩
      | lru s => exact absurd (hwhen.resolve_left Bool.false_ne_true) hrun
      | lfu s => exact absurd (hwhen.resolve_left Bool.false_ne_true) hrun

/-- Two files in the queue, the cells linked both ways. -/
def twoFiles : QueueState Nat where
  heap a := if a = 0 then some ⟨1, 1, (cstr "/mnt/ssd/a", 1)⟩
    else if a = 1 then some ⟨0, 0, (cstr "/mnt/ssd/b", 1)⟩ else none
  head := some 0
  tail := some 1

theorem twoFiles_reads :
    Reads twoFiles [0, 1] [] [(cstr "/mnt/ssd/a", 1), (cstr "/mnt/ssd/b", 1)] where
  nodup := by decide
  cycle := by
    refine List.isChain_cons_cons.mpr ⟨⟨rfl, rfl⟩, List.isChain_cons_cons.mpr ⟨⟨rfl, rfl⟩, ?_⟩⟩
    exact List.isChain_singleton 0
  head := rfl
  tail := rfl
  reading := rfl
  live := by
    intro a
    by_cases h₀ : a = 0
    · subst h₀
      decide
    · by_cases h₁ : a = 1
      · subst h₁
        decide
      · simp [twoFiles, CellRing.vals, h₀, h₁]
  apart := by simp

theorem twoFiles_holds :
    (CacheState.lru twoFiles).Holds [cstr "/mnt/ssd/a", cstr "/mnt/ssd/b"] :=
  ⟨[0, 1], _, twoFiles_reads, rfl, by decide⟩

theorem loopAgrees_iff_twoFiles :
    LoopAgrees .create 3 (fun _ => false) (.lru twoFiles)
        [cstr "/mnt/ssd/a", cstr "/mnt/ssd/b"] ↔
      (CacheState.lru twoFiles).isClock = true ∨ (fun _ : Nat => false) 0 = false ∨
        [cstr "/mnt/ssd/a", cstr "/mnt/ssd/b"] = [] :=
  loopAgrees_iff .create 3 (fun _ => false) (.lru twoFiles) _ twoFiles_holds (by decide)

/-- With the SSD full once, the first file is moved and the second one is marked. -/
theorem not_loopAgrees :
    (Caller.create.loop 3 (· == 0) 2 (.lru twoFiles)).map
        (fun r => r.2.map fun it => (it.moved, it.marked)) =
      some [(cstr "/mnt/ssd/a", cstr "/mnt/ssd/b")] ∧
    ¬ ∀ (call : Caller) (fuel : Nat) (full : Nat → Bool) (s : CacheState Nat) (files : List Bytes),
      s.Holds files → files.length < fuel → LoopAgrees call fuel full s files := by
  refine ⟨by decide, fun hall => ?_⟩
  have hagrees := hall .create 3 (fun _ => true) (.lru twoFiles) _ twoFiles_holds (by decide)
  exact not_loopAgrees_of_run twoFiles_holds rfl rfl (List.cons_ne_nil _ _) hagrees

end FusionFS.EvictionLoops
