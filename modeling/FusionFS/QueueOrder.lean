import FusionFS.LinkedQueueSpec
import FusionFS.Lib.AccessLog
import FusionFS.Lib.Run

/-!
# The order of the LRU and LFU queues

Any sequence of the three operations of a queue, from the state the mount starts in, with a log of
what came in and what left.
-/

namespace FusionFS.LinkedQueue

open CellRing Transition AccessLog

variable {A : Type} [DecidableEq A]

/-- A call, with what its environment supplies: for an insertion the cell `malloc` returns and what
its links held before. -/
inductive QueueOp (A : Type) where
  | insque (elem : A) (junk : A × A) (fname : Bytes)
  | rmelem (fname : Bytes)
  | remque

/-- The name in the head, which the callers of `remque_lru` and `remque_lfu` read. -/
def headName (s : QueueState A) : Option Bytes := do
  let head ← s.head
  let i ← s.heap head
  some i.val.1

/-- One call in the LRU mode. -/
def lruStep (fuel : Nat) : QueueState A × List (Event Bytes) → QueueOp A →
    Option (QueueState A × List (Event Bytes))
  | (s, log), .insque elem junk fname => do
      let s ← insqueLru fuel elem (s.malloc elem junk fname)
      some (s, .access fname :: log)
  | (s, log), .rmelem fname => do
      let s ← rmelemLru fuel fname s
      some (s, .leave fname :: log)
  | (s, log), .remque => do
      let fname ← headName s
      let s ← remqueLru s
      some (s, .leave fname :: log)

/-- One call in the LFU mode. -/
def lfuStep (fuel : Nat) : QueueState A × List (Event Bytes) → QueueOp A →
    Option (QueueState A × List (Event Bytes))
  | (s, log), .insque elem junk fname => do
      let s ← insqueLfu fuel elem (s.malloc elem junk fname)
      some (s, .access fname :: log)
  | (s, log), .rmelem fname => do
      let s ← rmelemLfu fuel fname s
      some (s, .leave fname :: log)
  | (s, log), .remque => do
      let fname ← headName s
      let s ← remqueLfu s
      some (s, .leave fname :: log)

/-- What callers and `malloc` guarantee: names fit in a cell, new cells are not in use, and the
removal of the head is called on a non-empty queue. -/
def Allowed (s : QueueState A × List (Event Bytes)) : QueueOp A → Prop
  | .insque elem _ fname => (s.1.heap elem).isNone ∧ fname.length < nameMax
  | .rmelem fname => fname.length < nameMax
  | .remque => s.1.head.isSome

instance (s : QueueState A × List (Event Bytes)) (op : QueueOp A) : Decidable (Allowed s op) := by
  cases op <;> unfold Allowed <;> infer_instance

/-- The allocated cells form one doubly linked ring of distinct names, closed by the two ends, which
are `NULL` exactly when it is empty; followed from the head it reads as the entries. -/
structure Cyclic (s : QueueState A) (entries : List (Bytes × Nat)) : Prop where
  ring : ∃ cells, cells.Nodup ∧ cells.length = entries.length ∧
    (∀ a, (s.heap a).isSome ↔ a ∈ cells) ∧ Ring.Cycle (links s.heap) cells
  closed : ∀ a, s.tail = some a → (links s.heap).next a = s.head
  head_null : s.head = none ↔ entries = []
  tail_null : s.tail = none ↔ entries = []
  distinct : (entries.map Prod.fst).Nodup
  reading : ∀ a, s.head = some a →
    (Ring.walk (links s.heap).next entries.length a).map (List.map (vals s.heap)) =
      some (entries.map some)

omit [DecidableEq A] in
theorem Reads.cyclic {s : QueueState A} {cells : List A} {entries : List (Bytes × Nat)}
    (h : Reads s cells [] entries) (hdistinct : (entries.map Prod.fst).Nodup) :
    Cyclic s entries where
  ring := by
    refine ⟨cells, h.nodup, h.length_eq, fun a => ?_, h.cycle⟩
    rw [← isSome_vals, h.live]
    simp
  closed := by
    intro a ha
    rw [h.tail] at ha
    cases cells with
    | nil => cases ha
    | cons x l => exact (h.cycle.last_linked_head ha).1.trans h.head.symm
  head_null := by
    rw [h.head, List.head?_eq_none_iff, ← List.length_eq_zero_iff, h.length_eq,
      List.length_eq_zero_iff]
  tail_null := by
    rw [h.tail, List.getLast?_eq_none_iff, ← List.length_eq_zero_iff, h.length_eq,
      List.length_eq_zero_iff]
  distinct := hdistinct
  reading := by
    intro a ha
    rw [h.head] at ha
    cases cells with
    | nil => cases ha
    | cons x l =>
        obtain rfl := Option.some.inj ha
        rw [← h.length_eq, h.cycle.walk_eq, Option.map_some, h.reading]

/-- The LRU queue reads as the cached names by the time of their last access, and the removal of its
head leaves the others. -/
def LruOrdered (s : QueueState A × List (Event Bytes)) : Prop :=
  ∃ entries, Cyclic s.1 entries ∧ Holds (entries.map Prod.fst) s.2 ∧
    (entries.map Prod.fst).Pairwise (fun a b => lastAccess a s.2 < lastAccess b s.2) ∧
    ∀ e rest, entries = e :: rest → ∃ s', remqueLru s.1 = some s' ∧ Cyclic s' rest

/-- Lower frequency first, and at the same frequency the earlier access. -/
def Before (log : List (Event Bytes)) (x y : Bytes × Nat) : Prop :=
  x.2 < y.2 ∨ x.2 = y.2 ∧ lastAccess x.1 log < lastAccess y.1 log

/-- The LFU queue reads as the cached names with the number of their accesses since they came in, by
this number and then by the time of the last access, and the removal of its head leaves the
others. -/
def LfuOrdered (s : QueueState A × List (Event Bytes)) : Prop :=
  ∃ entries, Cyclic s.1 entries ∧ Holds (entries.map Prod.fst) s.2 ∧
    (∀ e ∈ entries, e.2 = accesses e.1 s.2) ∧ entries.Pairwise (Before s.2) ∧
    ∀ e rest, entries = e :: rest → ∃ s', remqueLfu s.1 = some s' ∧ Cyclic s' rest

/-! ### Steps -/

section Steps

variable {s : QueueState A} {cells : List A} {entries : List (Bytes × Nat)}
  {log : List (Event Bytes)} {fuel : Nat}

omit [DecidableEq A] in
theorem headName_eq {e : Bytes × Nat} {es : List (Bytes × Nat)} (h : Reads s cells [] (e :: es)) :
    headName s = some e.1 := by
  have hfront : Reads s cells [] ([] ++ e :: es) := h
  obtain ⟨u, a, w, rfl, hu, ha, -⟩ := hfront.split
  obtain rfl : u = [] := by simpa using hu
  obtain ⟨i, hi, rfl⟩ := cell_of_vals ha
  have hhead : s.head = some a := h.head
  simp only [headName, hhead, hi, Option.bind_eq_bind, Option.bind_some]

theorem remqueHead_cyclic (h : Reads s cells [] entries)
    (hdistinct : (entries.map Prod.fst).Nodup) (e : Bytes × Nat) (rest : List (Bytes × Nat))
    (heq : entries = e :: rest) :
    ∃ s' cells', remqueHead s = some s' ∧ Reads s' cells' [] rest := by
  subst heq
  cases cells with
  | nil => cases h.length_eq
  | cons a w =>
      obtain ⟨s', hs', hreads, -⟩ := remqueHead_spec h
      exact ⟨s', w, hs', hreads⟩

theorem names_filter (fname : Bytes) (entries : List (Bytes × Nat)) :
    (entries.filter (·.1 ≠ fname)).map Prod.fst = (entries.map Prod.fst).filter (· ≠ fname) := by
  rw [List.filter_map]
  rfl

theorem filter_head {e : Bytes × Nat} {rest : List (Bytes × Nat)}
    (h : ((e :: rest).map Prod.fst).Nodup) : (e :: rest).filter (fun x => x.1 ≠ e.1) = rest := by
  have hfront : (([] ++ e :: rest).map Prod.fst).Nodup := h
  exact filter_split hfront

theorem pairwise_lastAccess_leave {names : List Bytes} (fname : Bytes)
    (h : names.Pairwise fun a b => lastAccess a log < lastAccess b log) :
    (names.filter (· ≠ fname)).Pairwise fun a b =>
      lastAccess a (.leave fname :: log) < lastAccess b (.leave fname :: log) :=
  h.sublist List.filter_sublist

theorem pairwise_lastAccess_access {names : List Bytes} (fname : Bytes)
    (h : names.Pairwise fun a b => lastAccess a log < lastAccess b log) :
    (names.filter (· ≠ fname) ++ [fname]).Pairwise fun a b =>
      lastAccess a (.access fname :: log) < lastAccess b (.access fname :: log) := by
  have hne : ∀ a ∈ names.filter (· ≠ fname), fname ≠ a := fun a ha =>
    (of_decide_eq_true (List.mem_filter.mp ha).2).symm
  rw [List.pairwise_append]
  refine ⟨?_, List.pairwise_singleton _ _, ?_⟩
  · refine (h.sublist List.filter_sublist).imp_of_mem ?_
    intro a b ha hb hab
    rw [lastAccess_access_of_ne (hne a ha), lastAccess_access_of_ne (hne b hb)]
    exact hab
  · intro a ha b hb
    obtain rfl := List.mem_singleton.mp hb
    rw [lastAccess_access_of_ne (hne a ha), lastAccess_access_self]
    exact Nat.lt_succ_of_le (lastAccess_le a log)

/-- What an LRU queue has between calls. -/
structure LruInv (s : QueueState A) (cells : List A) (entries : List (Bytes × Nat))
    (log : List (Event Bytes)) : Prop where
  reads : Reads s cells [] entries
  holds : Holds (entries.map Prod.fst) log
  order : (entries.map Prod.fst).Pairwise fun a b => lastAccess a log < lastAccess b log

theorem LruInv.ordered (h : LruInv s cells entries log) : LruOrdered (s, log) := by
  refine ⟨entries, h.reads.cyclic h.holds.nodup, h.holds, h.order, ?_⟩
  intro e rest heq
  obtain ⟨s', cells', hs', hreads⟩ := remqueHead_cyclic h.reads h.holds.nodup e rest heq
  have hnd := h.holds.nodup
  rw [heq] at hnd
  exact ⟨s', hs', hreads.cyclic (List.nodup_cons.mp hnd).2⟩

omit [DecidableEq A] in
theorem LruInv.leave (h : LruInv s cells entries log) {s' : QueueState A} {cells' : List A}
    (fname : Bytes) (hreads : Reads s' cells' [] (entries.filter (·.1 ≠ fname))) :
    LruInv s' cells' (entries.filter (·.1 ≠ fname)) (.leave fname :: log) := by
  refine ⟨hreads, ?_, ?_⟩
  · rw [names_filter]
    exact h.holds.leave fname
  · rw [names_filter]
    exact pairwise_lastAccess_leave fname h.order

omit [DecidableEq A] in
theorem LruInv.access (h : LruInv s cells entries log) {s' : QueueState A} {cells' : List A}
    {fname : Bytes} {n : Nat}
    (hreads : Reads s' cells' [] (entries.filter (·.1 ≠ fname) ++ [(fname, n)])) :
    LruInv s' cells' (entries.filter (·.1 ≠ fname) ++ [(fname, n)]) (.access fname :: log) := by
  have hnames : (entries.filter (·.1 ≠ fname) ++ [(fname, n)]).map Prod.fst =
      (entries.map Prod.fst).filter (· ≠ fname) ++ [fname] := by
    rw [List.map_append, names_filter]
    rfl
  refine ⟨hreads, ?_, ?_⟩
  · rw [hnames]
    exact h.holds.access (List.perm_append_singleton _ _)
  · rw [hnames]
    exact pairwise_lastAccess_access fname h.order

theorem LruInv.step (h : LruInv s cells entries log) (hfuel : entries.length ≤ fuel)
    {op : QueueOp A} (hop : Allowed (s, log) op) :
    ∃ s' cells' entries' log', lruStep fuel (s, log) op = some (s', log') ∧
      LruInv s' cells' entries' log' ∧ entries'.length ≤ entries.length + 1 := by
  cases op with
  | insque elem junk fname =>
      obtain ⟨hloose, helem⟩ :=
        h.reads.malloc (Option.isNone_iff_eq_none.mp hop.1) junk fname
      obtain ⟨s', cells', hs', hreads, -⟩ := insqueLru_spec hloose h.holds.nodup helem hfuel
      refine ⟨s', cells', _, .access fname :: log, ?_, h.access hreads, ?_⟩
      · rw [lruStep, hs']
        rfl
      · rw [List.length_append, List.length_singleton]
        exact Nat.succ_le_succ (List.length_filter_le _ _)
  | rmelem fname =>
      obtain ⟨s', cells', hs', hreads, -, -⟩ := rmelem_spec h.reads h.holds.nodup hfuel fname
      refine ⟨s', cells', _, .leave fname :: log, ?_, h.leave fname hreads, ?_⟩
      · rw [lruStep, rmelemLru, hs']
        rfl
      · exact (List.length_filter_le _ _).trans (Nat.le_succ _)
  | remque =>
      cases entries with
      | nil =>
          have hnull := (h.reads.cyclic h.holds.nodup).head_null.mpr rfl
          simp [Allowed, hnull] at hop
      | cons e rest =>
          obtain ⟨s', cells', hs', hreads⟩ :=
            remqueHead_cyclic h.reads h.holds.nodup e rest rfl
          have hleft := filter_head h.holds.nodup
          rw [← hleft] at hreads
          refine ⟨s', cells', _, .leave e.1 :: log, ?_, h.leave e.1 hreads, ?_⟩
          · rw [lruStep, headName_eq h.reads, remqueLru, hs']
            rfl
          · exact (List.length_filter_le _ _).trans (Nat.le_succ _)

/-- The file has been put in fewer times than an `int` can count since it last came in. -/
def Room (s : QueueState A × List (Event Bytes)) : QueueOp A → Prop
  | .insque _ _ fname => accesses fname s.2 < intMax
  | .rmelem _ => True
  | .remque => True

omit [DecidableEq A] in
instance (s : QueueState A × List (Event Bytes)) (op : QueueOp A) : Decidable (Room s op) := by
  cases op <;> unfold Room <;> infer_instance

/-- What an LFU queue has between calls. -/
structure LfuInv (s : QueueState A) (cells : List A) (entries : List (Bytes × Nat))
    (log : List (Event Bytes)) : Prop where
  reads : Reads s cells [] entries
  holds : Holds (entries.map Prod.fst) log
  counts : ∀ e ∈ entries, e.2 = accesses e.1 log
  order : entries.Pairwise (Before log)

/-- The entries as a queue of the LFU mode. -/
def LfuInv.queue (h : LfuInv s cells entries log) : LfuQueue where
  entries := entries
  nodup := h.holds.nodup
  sorted := h.order.imp fun hxy => hxy.elim Nat.le_of_lt fun heq => Nat.le_of_eq heq.1

omit [DecidableEq A] in
theorem LfuInv.mem_of_accesses (h : LfuInv s cells entries log) {fname : Bytes}
    (hpos : 0 < accesses fname log) : (fname, accesses fname log) ∈ entries := by
  obtain ⟨e, he, rfl⟩ := List.mem_map.mp ((h.holds.mem_iff fname).mpr hpos)
  rw [← h.counts e he]
  exact he

omit [DecidableEq A] in
theorem LfuInv.freq_eq (h : LfuInv s cells entries log) {fname : Bytes} {n : Nat}
    (hn : h.queue.freq fname = some n) : n = accesses fname log := by
  obtain ⟨⟨name, m⟩, hfound, rfl⟩ := Option.map_eq_some_iff.mp hn
  obtain rfl : name = fname := by simpa using List.find?_some hfound
  exact h.counts (name, m) (List.mem_of_find?_eq_some hfound)

omit [DecidableEq A] in
theorem LfuInv.entries_insque (h : LfuInv s cells entries log) (fname : Bytes) :
    (h.queue.insque fname).entries =
      insertByFreq (fname, accesses fname log + 1) (entries.filter (·.1 ≠ fname)) := by
  cases hfreq : h.queue.freq fname with
  | some n =>
      rw [entries_insque_of_some hfreq, ← h.freq_eq hfreq]
      rfl
  | none =>
      have hzero : accesses fname log = 0 := by
        by_contra hne
        have hmem := h.mem_of_accesses (Nat.pos_of_ne_zero hne)
        have hsome : h.queue.freq fname = some (accesses fname log) :=
          LfuQueue.freq_of_mem (q := h.queue) hmem
        rw [hfreq] at hsome
        cases hsome
      rw [entries_insque_of_none hfreq, hzero]
      rfl

theorem Before.access {x y : Bytes × Nat} {fname : Bytes} (h : Before log x y) (hx : x.1 ≠ fname)
    (hy : y.1 ≠ fname) : Before (.access fname :: log) x y := by
  unfold Before
  rw [lastAccess_access_of_ne hx.symm, lastAccess_access_of_ne hy.symm]
  exact h

/-- A new entry goes behind all of its frequency, as the one accessed last. -/
theorem pairwise_before_access {l : List (Bytes × Nat)} {fname : Bytes} {n : Nat}
    (h : l.Pairwise (Before log)) (hne : ∀ x ∈ l, x.1 ≠ fname) :
    (insertByFreq (fname, n) l).Pairwise (Before (.access fname :: log)) := by
  obtain ⟨es₁, es₂, rfl, hins, hlow, hhigh⟩ := insertByFreq_split (fname, n) l
  have hkeep : (es₁ ++ es₂).Pairwise (Before (.access fname :: log)) :=
    h.imp_of_mem fun hx hy hxy => hxy.access (hne _ hx) (hne _ hy)
  have hall : ∀ y ∈ es₂, n < y.2 := by
    cases es₂ with
    | nil => simp
    | cons y ys =>
        have hfirst : n < y.2 := hhigh y rfl
        have hrest := (List.pairwise_cons.mp (List.pairwise_append.mp h).2.1).1
        intro x hx
        rcases List.mem_cons.mp hx with rfl | hx
        · exact hfirst
        · rcases hrest x hx with hlt | heq
          · exact hfirst.trans hlt
          · exact hfirst.trans_eq heq.1
  rw [hins]
  obtain ⟨hes₁, hes₂, hcross⟩ := List.pairwise_append.mp hkeep
  refine List.pairwise_append.mpr ⟨hes₁, List.pairwise_cons.mpr ⟨?_, hes₂⟩, ?_⟩
  · exact fun y hy => .inl (hall y hy)
  · intro x hx y hy
    rcases List.mem_cons.mp hy with rfl | hy
    · have hxn : x.1 ≠ fname := hne x (List.mem_append_left _ hx)
      rcases Nat.lt_or_eq_of_le (Nat.not_lt.mp (hlow x hx)) with hlt | heq
      · exact .inl hlt
      · refine .inr ⟨heq, ?_⟩
        dsimp only
        rw [lastAccess_access_self, lastAccess_access_of_ne hxn.symm]
        exact Nat.lt_succ_of_le (lastAccess_le x.1 log)
    · exact hcross x hx y hy

theorem LfuInv.ordered (h : LfuInv s cells entries log) : LfuOrdered (s, log) := by
  refine ⟨entries, h.reads.cyclic h.holds.nodup, h.holds, h.counts, h.order, ?_⟩
  intro e rest heq
  obtain ⟨s', cells', hs', hreads⟩ := remqueHead_cyclic h.reads h.holds.nodup e rest heq
  have hnd := h.holds.nodup
  rw [heq] at hnd
  exact ⟨s', hs', hreads.cyclic (List.nodup_cons.mp hnd).2⟩

omit [DecidableEq A] in
theorem LfuInv.leave (h : LfuInv s cells entries log) {s' : QueueState A} {cells' : List A}
    (fname : Bytes) (hreads : Reads s' cells' [] (entries.filter (·.1 ≠ fname))) :
    LfuInv s' cells' (entries.filter (·.1 ≠ fname)) (.leave fname :: log) := by
  refine ⟨hreads, ?_, ?_, h.order.sublist List.filter_sublist⟩
  · rw [names_filter]
    exact h.holds.leave fname
  · intro e he
    obtain ⟨hmem, hne⟩ := List.mem_filter.mp he
    have hname : fname ≠ e.1 := (of_decide_eq_true hne).symm
    rw [accesses_leave_of_ne hname]
    exact h.counts e hmem

omit [DecidableEq A] in
theorem LfuInv.access (h : LfuInv s cells entries log) {s' : QueueState A} {cells' : List A}
    {fname : Bytes} (hreads : Reads s' cells' [] (h.queue.insque fname).entries) :
    LfuInv s' cells' (h.queue.insque fname).entries (.access fname :: log) := by
  rw [h.entries_insque] at hreads ⊢
  have hperm := insertByFreq_perm (fname, accesses fname log + 1) (entries.filter (·.1 ≠ fname))
  refine ⟨hreads, ?_, ?_, ?_⟩
  · refine h.holds.access ((hperm.map Prod.fst).trans ?_)
    rw [List.map_cons, names_filter]
  · intro e he
    rcases List.mem_cons.mp (hperm.mem_iff.mp he) with rfl | he
    · exact accesses_access_self.symm
    · obtain ⟨hmem, hne⟩ := List.mem_filter.mp he
      have hname : fname ≠ e.1 := (of_decide_eq_true hne).symm
      rw [accesses_access_of_ne hname]
      exact h.counts e hmem
  · refine pairwise_before_access (h.order.sublist List.filter_sublist) fun x hx => ?_
    exact of_decide_eq_true (List.mem_filter.mp hx).2

theorem LfuInv.step (h : LfuInv s cells entries log) (hfuel : entries.length ≤ fuel)
    {op : QueueOp A} (hop : Allowed (s, log) op) (hroom : Room (s, log) op) :
    ∃ s' cells' entries' log', lfuStep fuel (s, log) op = some (s', log') ∧
      LfuInv s' cells' entries' log' ∧ entries'.length ≤ entries.length + 1 := by
  cases op with
  | insque elem junk fname =>
      obtain ⟨hloose, helem⟩ :=
        h.reads.malloc (Option.isNone_iff_eq_none.mp hop.1) junk fname
      have hlt : ∀ n ∈ h.queue.freq fname, n < intMax := by
        intro n hn
        rw [h.freq_eq hn]
        exact hroom
      obtain ⟨s', cells', hs', hreads, -⟩ := insqueLfu_spec (q := h.queue) hloose helem hfuel hlt
      refine ⟨s', cells', _, .access fname :: log, ?_, h.access hreads, ?_⟩
      · rw [lfuStep, hs']
        rfl
      · rw [h.entries_insque, (insertByFreq_perm _ _).length_eq]
        exact Nat.succ_le_succ (List.length_filter_le _ _)
  | rmelem fname =>
      obtain ⟨s', cells', hs', hreads, -, -⟩ := rmelem_spec h.reads h.holds.nodup hfuel fname
      refine ⟨s', cells', _, .leave fname :: log, ?_, h.leave fname hreads, ?_⟩
      · rw [lfuStep, rmelemLfu, hs']
        rfl
      · exact (List.length_filter_le _ _).trans (Nat.le_succ _)
  | remque =>
      cases entries with
      | nil =>
          have hnull := (h.reads.cyclic h.holds.nodup).head_null.mpr rfl
          simp [Allowed, hnull] at hop
      | cons e rest =>
          obtain ⟨s', cells', hs', hreads⟩ :=
            remqueHead_cyclic h.reads h.holds.nodup e rest rfl
          have hleft := filter_head h.holds.nodup
          rw [← hleft] at hreads
          refine ⟨s', cells', _, .leave e.1 :: log, ?_, h.leave e.1 hreads, ?_⟩
          · rw [lfuStep, headName_eq h.reads, remqueLfu, hs']
            rfl
          · exact (List.length_filter_le _ _).trans (Nat.le_succ _)

theorem LfuInv.stuck (h : LfuInv s cells entries log) (hfuel : entries.length ≤ fuel)
    {op : QueueOp A} (hop : Allowed (s, log) op) (hfull : ¬ Room (s, log) op) :
    lfuStep fuel (s, log) op = none := by
  cases op with
  | insque elem junk fname =>
      obtain ⟨hloose, helem⟩ :=
        h.reads.malloc (Option.isNone_iff_eq_none.mp hop.1) junk fname
      have hmany : intMax ≤ accesses fname log := Nat.not_lt.mp hfull
      have hpos : 0 < accesses fname log := Nat.lt_of_lt_of_le (by decide) hmany
      have hfreq : h.queue.freq fname = some (accesses fname log) :=
        LfuQueue.freq_of_mem (q := h.queue) (h.mem_of_accesses hpos)
      rw [lfuStep, insqueLfu_overflow (q := h.queue) hloose helem hfuel hfreq hmany]
      rfl
  | rmelem fname => exact absurd trivial hfull
  | remque => exact absurd trivial hfull

end Steps

/-! ### Runs -/

theorem lru_safe {s : QueueState A} {cells : List A} {entries : List (Bytes × Nat)}
    {log : List (Event Bytes)} {fuel : Nat} {ops : List (QueueOp A)}
    (h : LruInv s cells entries log) (hfuel : entries.length + ops.length ≤ fuel)
    (hallowed : Guarded (lruStep fuel) Allowed (s, log) ops) :
    Safe (lruStep fuel) LruOrdered (s, log) ops := by
  induction ops generalizing s cells entries log with
  | nil => exact h.ordered
  | cons op ops ih =>
      rw [List.length_cons] at hfuel
      obtain ⟨s', cells', entries', log', hstep, hinv, hlen⟩ :=
        h.step (show entries.length ≤ fuel by omega) hallowed.1
      exact ⟨h.ordered, (s', log'), hstep, ih hinv (by omega) (hallowed.tail hstep)⟩

/-- **The LRU queue is in the order of last access** after every sequence of allowed calls, none of
which is ever undefined. -/
theorem lru_queue_order (fuel : Nat) (ops : List (QueueOp A)) (hfuel : ops.length ≤ fuel)
    (hallowed : Guarded (lruStep fuel) Allowed (QueueState.empty, []) ops) :
    Safe (lruStep fuel) LruOrdered (QueueState.empty, []) ops :=
  lru_safe ⟨Reads.empty, Holds.nil, List.Pairwise.nil⟩ (by simpa using hfuel) hallowed

/-- The head, the tail and a cell in the middle are put in again, and the tail is removed. -/
def everyPosition : List (QueueOp Nat) :=
  [.insque 0 (0, 0) (cstr "/ssd/a"), .insque 1 (0, 0) (cstr "/ssd/a"),
    .insque 2 (0, 0) (cstr "/ssd/b"), .insque 3 (0, 0) (cstr "/ssd/c"),
    .insque 4 (0, 0) (cstr "/ssd/a"), .insque 5 (0, 0) (cstr "/ssd/a"),
    .insque 6 (0, 0) (cstr "/ssd/c"), .rmelem (cstr "/ssd/c"), .remque]

theorem lru_queue_order_everyPosition :
    Safe (lruStep 9) LruOrdered (QueueState.empty, []) everyPosition :=
  lru_queue_order 9 everyPosition (by decide) (by decide)

theorem lfu_safe_iff {s : QueueState A} {cells : List A} {entries : List (Bytes × Nat)}
    {log : List (Event Bytes)} {fuel : Nat} {ops : List (QueueOp A)}
    (h : LfuInv s cells entries log) (hfuel : entries.length + ops.length ≤ fuel)
    (hallowed : Guarded (lfuStep fuel) Allowed (s, log) ops) :
    Safe (lfuStep fuel) LfuOrdered (s, log) ops ↔ Guarded (lfuStep fuel) Room (s, log) ops := by
  induction ops generalizing s cells entries log with
  | nil => exact iff_of_true h.ordered trivial
  | cons op ops ih =>
      rw [List.length_cons] at hfuel
      have hshort : entries.length ≤ fuel := by omega
      by_cases hroom : Room (s, log) op
      · obtain ⟨s', cells', entries', log', hstep, hinv, hlen⟩ := h.step hshort hallowed.1 hroom
        have hrest := ih hinv (by omega) (hallowed.tail hstep)
        constructor
        · rintro ⟨-, next, hnext, hsafe⟩
          obtain rfl := Option.some.inj (hstep.symm.trans hnext)
          refine ⟨hroom, ?_⟩
          rw [hstep]
          exact hrest.mp hsafe
        · intro hguard
          exact ⟨h.ordered, (s', log'), hstep, hrest.mpr (hguard.tail hstep)⟩
      · refine iff_of_false ?_ fun hguard => hroom hguard.1
        rintro ⟨-, next, hnext, -⟩
        rw [h.stuck hshort hallowed.1 hroom] at hnext
        cases hnext

/-- **The LFU queue is in the order of frequency and last access** along a sequence of allowed calls
exactly when no file is put in more often than an `int` can count while it stays. -/
theorem lfu_queue_order_iff (fuel : Nat) (ops : List (QueueOp A)) (hfuel : ops.length ≤ fuel)
    (hallowed : Guarded (lfuStep fuel) Allowed (QueueState.empty, []) ops) :
    Safe (lfuStep fuel) LfuOrdered (QueueState.empty, []) ops ↔
      Guarded (lfuStep fuel) Room (QueueState.empty, []) ops :=
  lfu_safe_iff ⟨Reads.empty, Holds.nil, by simp, List.Pairwise.nil⟩ (by simpa using hfuel) hallowed

theorem lfu_queue_order_everyPosition :
    Safe (lfuStep 9) LfuOrdered (QueueState.empty, []) everyPosition ↔
      Guarded (lfuStep 9) Room (QueueState.empty, []) everyPosition :=
  lfu_queue_order_iff 9 everyPosition (by decide) (by decide)

/-! ### The overflow -/

/-- One file is put in again and again, each time with a new cell. -/
def accessAgain : Nat → Nat → List (QueueOp Nat)
  | 0, _ => []
  | n + 1, cell => .insque cell (0, 0) (cstr "/ssd/a") :: accessAgain n (cell + 1)

theorem length_accessAgain (n cell : Nat) : (accessAgain n cell).length = n := by
  induction n generalizing cell with
  | zero => rfl
  | succ n ih => rw [accessAgain, List.length_cons, ih]

theorem accessAgain_spec {n cell fuel : Nat} {s : QueueState Nat} {cells : List Nat}
    {entries : List (Bytes × Nat)} {log : List (Event Bytes)} (h : LfuInv s cells entries log)
    (hnew : ∀ a ∈ cells, a < cell) (hfuel : entries.length + n ≤ fuel) :
    Guarded (lfuStep fuel) Allowed (s, log) (accessAgain n cell) ∧
      (Guarded (lfuStep fuel) Room (s, log) (accessAgain n cell) →
        n = 0 ∨ accesses (cstr "/ssd/a") log + n ≤ intMax) := by
  induction n generalizing cell s cells entries log with
  | zero => exact ⟨trivial, fun _ => .inl rfl⟩
  | succ n ih =>
      have hfresh : s.heap cell = none :=
        h.reads.heap_eq_none_iff.mpr fun hm => Nat.lt_irrefl _ (hnew cell hm)
      have hop : Allowed (s, log) (.insque cell (0, 0) (cstr "/ssd/a")) :=
        ⟨by simp [hfresh], by decide⟩
      have hshort : entries.length ≤ fuel := by omega
      by_cases hroom : Room (s, log) (.insque cell (0, 0) (cstr "/ssd/a"))
      · have hlt : ∀ m ∈ h.queue.freq (cstr "/ssd/a"), m < intMax := by
          intro m hm
          rw [h.freq_eq hm]
          exact hroom
        obtain ⟨hloose, helem⟩ := h.reads.malloc hfresh (0, 0) (cstr "/ssd/a")
        obtain ⟨s', cells', hs', hreads, hsub⟩ :=
          insqueLfu_spec (q := h.queue) hloose helem hshort hlt
        have hstep : lfuStep fuel (s, log) (.insque cell (0, 0) (cstr "/ssd/a")) =
            some (s', .access (cstr "/ssd/a") :: log) := by
          rw [lfuStep, hs']
          rfl
        have hnew' : ∀ a ∈ cells', a < cell + 1 := by
          intro a ha
          rcases List.mem_cons.mp (hsub ha) with rfl | ha
          · exact Nat.lt_succ_self a
          · exact Nat.lt_succ_of_lt (hnew a ha)
        have hlen : (h.queue.insque (cstr "/ssd/a")).entries.length + n ≤ fuel := by
          rw [h.entries_insque, (insertByFreq_perm _ _).length_eq, List.length_cons]
          have hle := List.length_filter_le (fun x : Bytes × Nat => decide (x.1 ≠ cstr "/ssd/a"))
            entries
          omega
        obtain ⟨hallowed, hcount⟩ := ih (h.access hreads) hnew' hlen
        refine ⟨⟨hop, by rw [hstep]; exact hallowed⟩, fun hguard => .inr ?_⟩
        have hmore := hcount (hguard.tail hstep)
        rw [accesses_access_self] at hmore
        have hone : accesses (cstr "/ssd/a") log < intMax := hroom
        omega
      · refine ⟨⟨hop, ?_⟩, fun hguard => absurd hguard.1 hroom⟩
        rw [h.stuck hshort hop hroom]
        trivial

/-- A file that is opened as often as an `int` counts and once more. -/
theorem not_lfu_queue_order :
    ¬ ∀ (fuel : Nat) (ops : List (QueueOp Nat)), ops.length ≤ fuel →
      Guarded (lfuStep fuel) Allowed (QueueState.empty, []) ops →
      Safe (lfuStep fuel) LfuOrdered (QueueState.empty, []) ops := by
  intro hall
  obtain ⟨n, hn⟩ : ∃ n, n = intMax + 1 := ⟨_, rfl⟩
  have hstart : LfuInv (QueueState.empty : QueueState Nat) [] [] [] :=
    ⟨Reads.empty, Holds.nil, by simp, List.Pairwise.nil⟩
  obtain ⟨hallowed, hcount⟩ :=
    @accessAgain_spec n 0 n _ _ _ _ hstart (by simp) (by simp)
  have hsafe := hall n (accessAgain n 0) (Nat.le_of_eq (length_accessAgain n 0)) hallowed
  have hguard := (lfu_safe_iff hstart (by simp [length_accessAgain]) hallowed).mp hsafe
  have hbound := hcount hguard
  omega

end FusionFS.LinkedQueue
