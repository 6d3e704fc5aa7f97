import FusionFS.CString
import FusionFS.Lib.Ring
import FusionFS.Lib.SecondChance

/-!
# The clock queue

The cached SSD files of one node, as `clock.c` keeps them: heap cells linked in a ring, and the three
pointers `clock_head`, `clock_tail` and `victim` of the mount state. Following a pointer to a cell
that is not allocated is undefined, and so is a loop that does not end; both are `none`. Loops carry
the number of iterations they may take.
-/

namespace FusionFS

/-- `NAME_MAX`, the size of the array that holds a cell's name. -/
def nameMax : Nat := 255

variable {A : Type} [DecidableEq A]

/-- `inode_t`, with the fields the clock uses. -/
structure Inode (A : Type) where
  next : A
  prev : A
  fname : Bytes
  refBit : Bool
  deriving DecidableEq

structure ClockState (A : Type) where
  heap : A → Option (Inode A)
  clockHead : Option A
  clockTail : Option A
  victim : Option A

namespace ClockState

def empty : ClockState A := ⟨fun _ => none, none, none, none⟩

variable (s : ClockState A)

def links : Ring.Links A :=
  ⟨fun a => (s.heap a).map Inode.next, fun a => (s.heap a).map Inode.prev⟩

def content (a : A) : Option (Bytes × Bool) := (s.heap a).map fun i => (i.fname, i.refBit)

/-- A write to one field of a cell. -/
def modify (a : A) (f : Inode A → Inode A) : Option (ClockState A) :=
  (s.heap a).map fun i => { s with heap := Function.update s.heap a (some (f i)) }

def setNext (a b : A) : Option (ClockState A) := s.modify a fun i => { i with next := b }

def setPrev (a b : A) : Option (ClockState A) := s.modify a fun i => { i with prev := b }

def setRefBit (a : A) (bit : Bool) : Option (ClockState A) :=
  s.modify a fun i => { i with refBit := bit }

/-- `malloc`, `strcpy` of the name and the set reference bit. The links start as whatever the
memory held. -/
def malloc (elem : A) (junk : Inode A) (fname : Bytes) : ClockState A :=
  { s with heap := Function.update s.heap elem (some { junk with fname := fname, refBit := true }) }

def free (elem : A) : ClockState A := { s with heap := Function.update s.heap elem none }

end ClockState

open ClockState

/-- The `do … while` loop of `findelem_clock`. -/
def findelemLoop (s : ClockState A) (fname : Bytes) (head : A) : Nat → A → Option (Option A)
  | 0, _ => none
  | fuel + 1, curr => do
      let i ← s.heap curr
      if i.fname = fname then some (some curr)
      else if i.next = head then some none
      else findelemLoop s fname head fuel i.next

def findelemClock (fuel : Nat) (s : ClockState A) (fname : Bytes) : Option (Option A) :=
  match s.clockHead with
  | none => some none
  | some head => findelemLoop s fname head fuel head

/-- The `do … while` loop that logs the queue from `clock_head` on. -/
def logLoop (s : ClockState A) (head : A) : Nat → A → Option (List Bytes)
  | 0, _ => none
  | fuel + 1, pt => do
      let i ← s.heap pt
      if i.next = head then some [i.fname]
      else (logLoop s head fuel i.next).map (i.fname :: ·)

def logQueue (fuel : Nat) (s : ClockState A) : Option (List Bytes) := do
  let head ← s.clockHead
  logLoop s head fuel head

def insQ (elem : A) (s : ClockState A) : Option (ClockState A) :=
  match s.victim with
  | some victim => do
      let s := if s.victim = s.clockHead then { s with clockHead := some elem } else s
      let prev ← s.links.prev victim
      let s ← s.setNext prev elem
      let s ← s.setNext elem victim
      let s ← s.setPrev victim elem
      s.setPrev elem prev
  | none => do
      let tail ← s.clockTail
      let s ← s.setPrev elem tail
      let first ← s.links.next tail
      let s ← s.setNext elem first
      let s ← s.setNext tail elem
      let s := { s with clockTail := some elem }
      let head ← s.clockHead
      s.setPrev head elem

/-- The part of `rem_Q` that moves the head, the tail and the victim pointer off the cell. -/
def stepOff (elem : A) (i : Inode A) (s : ClockState A) : ClockState A :=
  let s :=
    if some elem = s.clockHead then { s with clockHead := some i.next }
    else if some elem = s.clockTail then { s with clockTail := some i.prev }
    else s
  if s.victim = some elem then { s with victim := some i.next } else s

def remQ (elem : A) (s : ClockState A) : Option (ClockState A) := do
  let i ← s.heap elem
  if elem = i.next then
    let s := { s with victim := none, clockHead := none, clockTail := none }
    some (s.free elem)
  else
    let s := stepOff elem i s
    let s ← s.setNext i.prev i.next
    let s ← s.setPrev i.next i.prev
    some (s.free elem)

/-- `insque_clock`. The new cell, when one is needed, is the one `malloc` returns. -/
def insqueClock (fuel : Nat) (elem : A) (junk : Inode A) (fname : Bytes) (s : ClockState A) :
    Option (ClockState A) := do
  let found ← findelemClock fuel s fname
  let s ← match found with
    | some a => s.setRefBit a true
    | none =>
        -- `strcpy` of a longer name would run past the cell
        if nameMax ≤ fname.length then none
        else
          let s := s.malloc elem junk fname
          match s.clockHead with
          | none => do
              let s ← s.setNext elem elem
              let s ← s.setPrev elem elem
              some { s with clockHead := some elem, clockTail := some elem }
          | some _ => insQ elem s
  let _ ← logQueue fuel s
  some s

/-- The `while (1)` loop of `remque_clock`. -/
def remqueLoop : Nat → ClockState A → Option (Bytes × ClockState A)
  | 0, _ => none
  | fuel + 1, s => do
      let victim ← s.victim
      let i ← s.heap victim
      if i.refBit = false then
        let s ← remQ victim s
        some (i.fname, s)
      else
        let s ← s.setRefBit victim false
        remqueLoop fuel { s with victim := some i.next }

/-- `remque_clock`. On an empty queue the victim pointer stays `NULL` and is followed. -/
def remqueClock (fuel : Nat) (s : ClockState A) : Option (Bytes × ClockState A) := do
  let s := if s.victim = none then { s with victim := s.clockHead } else s
  let victim ← s.victim
  let i ← s.heap victim
  if victim = i.next then
    let s ← remQ victim s
    some (i.fname, s)
  else
    let (fname, s) ← remqueLoop fuel s
    let _ ← logQueue fuel s
    some (fname, s)

def rmelemClock (fuel : Nat) (fname : Bytes) (s : ClockState A) : Option (ClockState A) :=
  match s.clockHead with
  | none => some s
  | some _ => do
      let found ← findelemClock fuel s fname
      match found with
      | some a => remQ a s
      | none => some s

/-! ### Cells and links -/

namespace ClockState

variable {s : ClockState A} {a b : A}

omit [DecidableEq A] in
theorem isSome_heap_iff (s : ClockState A) (a : A) : (s.heap a).isSome ↔ (s.content a).isSome := by
  simp [content]

theorem modify_of_live {i : Inode A} (hi : s.heap a = some i) (f : Inode A → Inode A) :
    s.modify a f = some { s with heap := Function.update s.heap a (some (f i)) } := by
  rw [modify, hi, Option.map_some]

/-- Everything but the links is as it was. -/
structure Relinked (s s' : ClockState A) : Prop where
  content : s'.content = s.content
  head : s'.clockHead = s.clockHead
  tail : s'.clockTail = s.clockTail
  hand : s'.victim = s.victim

omit [DecidableEq A] in
theorem Relinked.trans {s s' s'' : ClockState A} (h : Relinked s s') (h' : Relinked s' s'') :
    Relinked s s'' :=
  ⟨h'.content.trans h.content, h'.head.trans h.head, h'.tail.trans h.tail, h'.hand.trans h.hand⟩

theorem setNext_spec (h : (s.content a).isSome) (b : A) :
    ∃ s', s.setNext a b = some s' ∧ Relinked s s' ∧
      s'.links.next = Function.update s.links.next a (some b) ∧ s'.links.prev = s.links.prev := by
  obtain ⟨i, hi⟩ := Option.isSome_iff_exists.mp ((isSome_heap_iff s a).mpr h)
  refine ⟨_, modify_of_live hi _, ⟨?_, rfl, rfl, rfl⟩, ?_, ?_⟩
  all_goals
    funext x
    by_cases hx : x = a
    · subst hx
      simp [content, links, hi]
    · simp [content, links, hx]

theorem setPrev_spec (h : (s.content a).isSome) (b : A) :
    ∃ s', s.setPrev a b = some s' ∧ Relinked s s' ∧
      s'.links.prev = Function.update s.links.prev a (some b) ∧ s'.links.next = s.links.next := by
  obtain ⟨i, hi⟩ := Option.isSome_iff_exists.mp ((isSome_heap_iff s a).mpr h)
  refine ⟨_, modify_of_live hi _, ⟨?_, rfl, rfl, rfl⟩, ?_, ?_⟩
  all_goals
    funext x
    by_cases hx : x = a
    · subst hx
      simp [content, links, hi]
    · simp [content, links, hx]

theorem setRefBit_spec {fname : Bytes} {old : Bool} (h : s.content a = some (fname, old))
    (bit : Bool) :
    ∃ s', s.setRefBit a bit = some s' ∧ s'.links = s.links ∧
      s'.content = Function.update s.content a (some (fname, bit)) ∧ s'.clockHead = s.clockHead ∧
      s'.clockTail = s.clockTail ∧ s'.victim = s.victim := by
  obtain ⟨i, hi, hcell⟩ := Option.map_eq_some_iff.mp h
  obtain ⟨hname, -⟩ := Prod.mk.inj hcell
  refine ⟨_, modify_of_live hi _, ?_, ?_, rfl, rfl, rfl⟩
  · refine congrArg₂ Ring.Links.mk ?_ ?_
    all_goals
      funext x
      by_cases hx : x = a
      · subst hx
        simp [hi]
      · simp [hx]
  · funext x
    by_cases hx : x = a
    · subst hx
      simp [content, hname]
    · simp [content, hx]

end ClockState

end FusionFS
