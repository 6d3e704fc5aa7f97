import FusionFS.Clock
import FusionFS.Lib.CellRing

/-!
# The LRU and LFU queues

The two other queues of cached files, as `util.c` keeps them: heap cells in a ring, with the first
and the last of them in `lru_head` and `lru_tail`, or `lfu_head` and `lfu_tail`. A mount uses one of
the two. `NULL` or a freed cell that is followed is `none`, and so is a loop that takes more
iterations than it may, or an `int` that overflows.
-/

namespace FusionFS.LinkedQueue

open CellRing

variable {A : Type} [DecidableEq A]

/-- The cells hold a name and `freq`; `head` and `tail` are those of the mode. -/
structure QueueState (A : Type) where
  heap : Heap A (Bytes × Nat)
  head : Option A
  tail : Option A

namespace QueueState

def empty : QueueState A := ⟨fun _ => none, none, none⟩

/-- `malloc`, `strcpy` of the name and `freq = 1`, as the callers of the insertions prepare a cell.
The links start as whatever the memory held. The LRU mode leaves `freq` alone. -/
def malloc (s : QueueState A) (elem : A) (junk : A × A) (fname : Bytes) : QueueState A :=
  { s with heap := Function.update s.heap elem (some ⟨junk.1, junk.2, (fname, 1)⟩) }

end QueueState

def intMax : Nat := 2 ^ 31 - 1

/-- The `do … while` loop of the searches. -/
def findelemLoop (heap : Heap A (Bytes × Nat)) (fname : Bytes) (head : A) :
    Nat → A → Option (Option A)
  | 0, _ => none
  | fuel + 1, curr => do
      let i ← heap curr
      if i.val.1 = fname then some (some curr)
      else if i.next = head then some none
      else findelemLoop heap fname head fuel i.next

def findelem (fuel : Nat) (s : QueueState A) (fname : Bytes) : Option (Option A) :=
  match s.head with
  | none => some none
  | some head => findelemLoop s.heap fname head fuel head

def findelemLru (fuel : Nat) (s : QueueState A) (fname : Bytes) : Option (Option A) :=
  findelem fuel s fname

def findelemLfu (fuel : Nat) (s : QueueState A) (fname : Bytes) : Option (Option A) :=
  findelem fuel s fname

/-- Take out the head. On an empty queue the head is `NULL` and is followed. -/
def remqueHead (s : QueueState A) : Option (QueueState A) := do
  let head ← s.head
  let i ← s.heap head
  if head = i.next then
    let heap ← remque head s.heap
    some ⟨free heap head, none, none⟩
  else
    let heap ← remque head s.heap
    some { s with heap := free heap head, head := some i.next }

def remqueLru (s : QueueState A) : Option (QueueState A) := remqueHead s

def remqueLfu (s : QueueState A) : Option (QueueState A) := remqueHead s

/-- Take out a cell that was found. -/
def remElem (found : A) (s : QueueState A) : Option (QueueState A) :=
  if some found = s.head then remqueHead s
  else if some found = s.tail then do
    let i ← s.heap found
    let heap ← remque found s.heap
    some { s with heap := free heap found, tail := some i.prev }
  else do
    let heap ← remque found s.heap
    some { s with heap := free heap found }

def rmelem (fuel : Nat) (fname : Bytes) (s : QueueState A) : Option (QueueState A) :=
  match s.head with
  | none => some s
  | some _ => do
      match ← findelem fuel s fname with
      | none => some s
      | some found => remElem found s

def rmelemLru (fuel : Nat) (fname : Bytes) (s : QueueState A) : Option (QueueState A) :=
  rmelem fuel fname s

def rmelemLfu (fuel : Nat) (fname : Bytes) (s : QueueState A) : Option (QueueState A) :=
  rmelem fuel fname s

/-- The branch of the insertions for an empty queue. -/
def insqueFirst (elem : A) (s : QueueState A) : Option (QueueState A) := do
  let heap ← setNext s.heap elem elem
  let heap ← setPrev heap elem elem
  let heap ← insque elem elem heap
  some ⟨heap, some elem, some elem⟩

/-- Add the cell to the tail. -/
def insqueTail (elem : A) (s : QueueState A) : Option (QueueState A) :=
  match s.head with
  | none => insqueFirst elem s
  | some _ => do
      let tail ← s.tail
      let heap ← insque elem tail s.heap
      some { s with heap := heap, tail := some elem }

def insqueLru (fuel : Nat) (elem : A) (s : QueueState A) : Option (QueueState A) := do
  let e ← s.heap elem
  let found ← findelemLru fuel s e.val.1
  let s ← (if found.isSome then rmelemLru fuel e.val.1 s else some s)
  insqueTail elem s

/-- The `do … while` loop of `get_pos_lfu`: `found` and where it stops. -/
def getPosLoop (heap : Heap A (Bytes × Nat)) (freq : Nat) (head : A) : Nat → A → Option (Bool × A)
  | 0, _ => none
  | fuel + 1, curr => do
      let i ← heap curr
      if freq < i.val.2 then some (true, curr)
      else if i.next = head then some (false, head)
      else getPosLoop heap freq head fuel i.next

/-- `get_pos_lfu`. The inner `none` is the `NULL` of a new head. -/
def getPosLfu (fuel : Nat) (elem : A) (s : QueueState A) : Option (Option A) := do
  let e ← s.heap elem
  let head ← s.head
  let (found, curr) ← getPosLoop s.heap e.val.2 head fuel head
  if head = curr then
    if found then some none else s.tail.map some
  else
    let i ← s.heap curr
    some (some i.prev)

/-- The branch of `insque_lfu` for a name that is in the queue. -/
def insqueFound (fuel : Nat) (elem found : A) (s : QueueState A) : Option (QueueState A) := do
  let i ← s.heap found
  let e ← s.heap elem
  -- `found->freq + 1` overflows
  if intMax ≤ i.val.2 then none
  else
    let heap ← setVal s.heap elem (e.val.1, i.val.2 + 1)
    rmelemLfu fuel i.val.1 { s with heap := heap }

/-- Insert the cell where its frequency belongs. -/
def insqueAtPos (fuel : Nat) (elem : A) (s : QueueState A) : Option (QueueState A) :=
  match s.head with
  | none => insqueFirst elem s
  | some _ => do
      match ← getPosLfu fuel elem s with
      | none =>
          let tail ← s.tail
          let heap ← insque elem tail s.heap
          some { s with heap := heap, head := some elem }
      | some prev =>
          let heap ← insque elem prev s.heap
          if s.tail = some prev then some { s with heap := heap, tail := some elem }
          else some { s with heap := heap }

def insqueLfu (fuel : Nat) (elem : A) (s : QueueState A) : Option (QueueState A) := do
  let e ← s.heap elem
  match ← findelemLfu fuel s e.val.1 with
  | some found =>
      let s ← insqueFound fuel elem found s
      insqueAtPos fuel elem s
  | none => insqueAtPos fuel elem s

/-! ### What a queue reads as -/

/-- The ring of cells and its two ends, read from the head; the allocated cells outside it are
loose. -/
structure Reads (s : QueueState A) (cells loose : List A) (entries : List (Bytes × Nat)) :
    Prop where
  nodup : cells.Nodup
  cycle : Ring.Cycle (links s.heap) cells
  head : s.head = cells.head?
  tail : s.tail = cells.getLast?
  reading : cells.map (vals s.heap) = entries.map some
  live : ∀ a, (vals s.heap a).isSome ↔ a ∈ cells ∨ a ∈ loose
  apart : ∀ a ∈ loose, a ∉ cells

namespace Reads

variable {s : QueueState A} {cells loose : List A} {entries : List (Bytes × Nat)}

omit [DecidableEq A] in
theorem empty : Reads (QueueState.empty : QueueState A) [] [] [] where
  nodup := List.nodup_nil
  cycle := trivial
  head := rfl
  tail := rfl
  reading := rfl
  live := by simp [QueueState.empty, vals]
  apart := by simp

omit [DecidableEq A] in
theorem length_eq (h : Reads s cells loose entries) : cells.length = entries.length := by
  simpa using congrArg List.length h.reading

omit [DecidableEq A] in
theorem split {e : Bytes × Nat} {es₁ es₂ : List (Bytes × Nat)}
    (h : Reads s cells loose (es₁ ++ e :: es₂)) : ∃ u a w, cells = u ++ a :: w ∧
      u.map (vals s.heap) = es₁.map some ∧ vals s.heap a = some e ∧
      w.map (vals s.heap) = es₂.map some := by
  have hreading := h.reading
  rw [List.map_append, List.map_cons, List.map_eq_append_iff] at hreading
  obtain ⟨u, rest, rfl, hu, hrest⟩ := hreading
  obtain ⟨a, w, rfl, ha, hw⟩ := List.map_eq_cons_iff.mp hrest
  exact ⟨u, a, w, rfl, hu, ha, hw⟩

omit [DecidableEq A] in
theorem heap_eq_none_iff (h : Reads s cells [] entries) {a : A} : s.heap a = none ↔ a ∉ cells := by
  rw [← Option.not_isSome_iff_eq_none, ← isSome_vals, h.live]
  simp

/-- A cell that the caller has just allocated. -/
theorem malloc (h : Reads s cells [] entries) {elem : A} (hfresh : s.heap elem = none)
    (junk : A × A) (fname : Bytes) :
    Reads (s.malloc elem junk fname) cells [elem] entries ∧
      vals (s.malloc elem junk fname).heap elem = some (fname, 1) := by
  have hout : elem ∉ cells := h.heap_eq_none_iff.mp hfresh
  have hsame : ∀ a ∈ cells, (s.malloc elem junk fname).heap a = s.heap a := fun a ha =>
    Function.update_of_ne (fun heq : a = elem => hout (heq ▸ ha)) _ _
  refine ⟨⟨h.nodup, ?_, h.head, h.tail, ?_, ?_, ?_⟩, ?_⟩
  · have hchain := h.cycle
    cases cells with
    | nil => trivial
    | cons b l =>
        refine Ring.isChain_of_agree hchain ?_ ?_
        · intro x hx
          have hxl : x ∈ b :: l := by
            rw [← List.cons_append, List.dropLast_concat] at hx
            exact hx
          exact congrArg (Option.map Cell.next) (hsame x hxl)
        · intro x hx
          have hxl : x ∈ b :: l := by simpa [or_comm] using hx
          exact congrArg (Option.map Cell.prev) (hsame x hxl)
  · rw [← h.reading]
    exact List.map_congr_left fun a ha => congrArg (Option.map Cell.val) (hsame a ha)
  · intro a
    by_cases ha : a = elem
    · subst ha
      simp [QueueState.malloc, vals]
    · have hkeep : (s.malloc elem junk fname).heap a = s.heap a := Function.update_of_ne ha _ _
      rw [vals, hkeep, ← vals, h.live]
      simp [ha]
  · simpa using hout
  · simp [QueueState.malloc, vals]

end Reads

end FusionFS.LinkedQueue
