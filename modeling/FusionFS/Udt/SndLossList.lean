import FusionFS.Lib.IntervalSlots
import FusionFS.Lib.Run
import FusionFS.Udt.SeqNo

/-!
# The loss list of a sender

`CSndLossList`: the sequence numbers to send again. Losses are inserted in any order, and an insertion
joins the nodes it touches. Numbers go out from the front, one by one or up to an acknowledged one.
-/

namespace FusionFS.Udt

open IntervalSet IntervalSlots SerialNumber SlotChain

/-- `-1` is `none`. -/
structure SndLossList where
  data1 : Nat → Option Nat
  data2 : Nat → Option Nat
  next : Nat → Option Nat
  head : Option Nat
  length : Int
  size : Nat
  lastInsertPos : Option Nat

namespace SndLossList

def new (size : Nat) : SndLossList := ⟨fun _ => none, fun _ => none, fun _ => none, none, 0, size, none⟩

/-- The second array with the end of a new node. -/
def putLast (l : SndLossList) (loc seqno1 seqno2 : Nat) : Nat → Option Nat :=
  if seqno2 ≠ seqno1 then Function.update l.data2 loc (some seqno2) else l.data2

/-- The end and the length when the node `i`, which starts with `first`, joins one with the end `last`. -/
def joined (l : SndLossList) (loc i first last : Nat) : (Nat → Option Nat) × Int :=
  match l.data2 i with
  | some lastNext =>
      if 0 < seqcmp lastNext last then
        (Function.update l.data2 loc (some lastNext),
          if 0 ≤ seqcmp last first then l.length - seqlen first last else l.length)
      else (l.data2, l.length - seqlen first lastNext)
  | none =>
      if first = incseq last then (Function.update l.data2 loc (some first), l.length)
      else (l.data2, l.length - 1)

/-- The loop that coalesces a node with those behind it. -/
def coalesce (loc : Nat) : Nat → SndLossList → Option SndLossList
  | fuel, l =>
      match l.next loc, l.data2 loc with
      | some i, some last => do
          let first ← l.data1 i
          if seqcmp first (incseq last) ≤ 0 then
            match fuel with
            | 0 => none
            | fuel + 1 => coalesce loc fuel { l with
                data1 := Function.update l.data1 i none
                data2 := Function.update (l.joined loc i first last).1 i none
                next := Function.update l.next loc (l.next i)
                length := (l.joined loc i first last).2 }
          else some l
      | _, _ => some l

/-- The loop that looks for the node before a number. -/
def searchPrior (l : SndLossList) (seqno : Nat) : Nat → Nat → Option Nat
  | fuel, i =>
      match l.next i with
      | some j => do
          let first ← l.data1 j
          if seqcmp first seqno < 0 then
            match fuel with
            | 0 => none
            | fuel + 1 => searchPrior l seqno fuel j
          else some i
      | none => some i

/-- A node that starts with the first number gets the second one for its end, or it is long enough. -/
def lengthen (l : SndLossList) (loc seqno1 seqno2 : Nat) : Option SndLossList :=
  match l.data2 loc with
  | none =>
      if seqno2 ≠ seqno1 then
        some { l with
          data2 := Function.update l.data2 loc (some seqno2)
          length := l.length + (seqlen seqno1 seqno2 - 1) }
      else some l
  | some last =>
      if 0 < seqcmp seqno2 last then
        some { l with
          data2 := Function.update l.data2 loc (some seqno2)
          length := l.length + (seqlen last seqno2 - 1) }
      else none

/-- Where the search for the node before a number starts. -/
def searchStart (l : SndLossList) (head seqno : Nat) : Nat :=
  match l.lastInsertPos with
  | some pos => if (l.data1 pos).any fun first => seqcmp first seqno < 0 then pos else head
  | none => head

/-- A new node behind another. -/
def newNode (l : SndLossList) (i loc seqno1 seqno2 : Nat) : SndLossList :=
  { l with
    lastInsertPos := some loc
    data1 := Function.update l.data1 loc (some seqno1)
    data2 := l.putLast loc seqno1 seqno2
    next := Function.update (Function.update l.next loc (l.next i)) i (some loc)
    length := l.length + seqlen seqno1 seqno2 }

/-- What is in the list before it is coalesced, and the node to do it from, unless all was there. -/
def place (l : SndLossList) (head loc : Nat) (offset : Int) (seqno1 seqno2 : Nat) :
    Option (SndLossList × Option Nat) :=
  if offset < 0 then
    some ({ l with
      data1 := Function.update l.data1 loc (some seqno1)
      data2 := l.putLast loc seqno1 seqno2
      next := Function.update l.next loc (some head)
      head := some loc
      lastInsertPos := some loc
      length := l.length + seqlen seqno1 seqno2 }, some loc)
  else if 0 < offset then
    if l.data1 loc = some seqno1 then
      let l := { l with lastInsertPos := some loc }
      match l.lengthen loc seqno1 seqno2 with
      | some l => some (l, some loc)
      | none => some (l, none)
    else do
      let i ← l.searchPrior seqno1 l.size (l.searchStart head seqno1)
      match l.data2 i with
      | some last =>
          if seqcmp last seqno1 < 0 then some (l.newNode i loc seqno1 seqno2, some loc)
          else
            let l := { l with lastInsertPos := some i }
            if seqcmp last seqno2 < 0 then
              some ({ l with
                data2 := Function.update l.data2 i (some seqno2)
                length := l.length + (seqlen last seqno2 - 1) }, some i)
            else some (l, none)
      | none => some (l.newNode i loc seqno1 seqno2, some loc)
  else
    let l := { l with lastInsertPos := some head }
    if seqno2 ≠ seqno1 then
      match l.lengthen loc seqno1 seqno2 with
      | some l => some (l, some loc)
      | none => some (l, none)
    else some (l, none)

/-- Returns how many numbers are new. -/
def insert (l : SndLossList) (seqno1 seqno2 : Nat) : Option (SndLossList × Int) :=
  if l.length = 0 then
    let length := l.length + seqlen seqno1 seqno2
    some ({ l with
      head := some 0
      data1 := Function.update l.data1 0 (some seqno1)
      data2 := l.putLast 0 seqno1 seqno2
      next := Function.update l.next 0 none
      lastInsertPos := some 0
      length := length }, length)
  else do
    let head ← l.head
    let first ← l.data1 head
    let offset := seqoff first seqno1
    let loc ← index (head + offset + l.size) l.size
    let (l', start) ← l.place head loc offset seqno1 seqno2
    match start with
    | some loc => (coalesce loc l'.size l').map fun l'' => (l'', l''.length - l.length)
    | none => some (l', 0)

/-- The first number goes, and its node with it if it has no other. -/
def popHead (l : SndLossList) (head seqno : Nat) : SndLossList :=
  let l := { l with
    lastInsertPos := if l.lastInsertPos = some head then none else l.lastInsertPos
    length := l.length - 1 }
  match l.data2 head with
  | none => { l with data1 := Function.update l.data1 head none, head := l.next head }
  | some last =>
      let loc := (head + 1) % l.size
      let data2 :=
        if 0 < seqcmp last (incseq seqno) then Function.update l.data2 loc (some last) else l.data2
      { l with
        data1 := Function.update (Function.update l.data1 loc (some (incseq seqno))) head none
        data2 := Function.update data2 head none
        next := Function.update l.next loc (l.next head)
        head := some loc }

/-- Cutting a node behind a number. What is left of it, `rest`, stays before the new head. -/
def cutNode (l : SndLossList) (i loc seqno last : Nat) (rest : Option Nat) : SndLossList :=
  let loc := (loc + 1) % l.size
  let data2 :=
    if 0 < seqcmp last (incseq seqno) then Function.update l.data2 loc (some last) else l.data2
  { l with
    data1 := Function.update l.data1 loc (some (incseq seqno))
    data2 := Function.update data2 i rest
    next := Function.update (Function.update l.next loc (l.next i)) i (some loc)
    head := some loc }

/-- The length without the node `k`, which starts with `first`. -/
def lengthWithout (l : SndLossList) (k first : Nat) : Int :=
  match l.data2 k with
  | some last => l.length - seqlen first last
  | none => l.length - 1

/-- The loop that removes the nodes before the new head. -/
def removeNodes : Nat → SndLossList → Option Nat → Option SndLossList
  | 0, l, h => if h = l.head then some l else none
  | fuel + 1, l, h =>
      if h = l.head then some l
      else do
        let k ← h
        let first ← l.data1 k
        removeNodes fuel { l with
          data1 := Function.update l.data1 k none
          data2 := Function.update l.data2 k none
          length := l.lengthWithout k first
          lastInsertPos := if l.lastInsertPos = some k then none else l.lastInsertPos } (l.next k)

/-- Removes the number and all before it. -/
def remove (l : SndLossList) (seqno : Nat) : Option SndLossList :=
  if l.length = 0 then some l
  else do
    let head ← l.head
    let first ← l.data1 head
    let offset := seqoff first seqno
    if offset = 0 then some (l.popHead head seqno)
    else if 0 < offset then do
      let loc ← index (head + offset + l.size) l.size
      let l' ←
        if l.data1 loc = some seqno then
          match l.data2 loc with
          | none => some { l with head := l.next loc }
          | some last => some (l.cutNode loc loc seqno last none)
        else do
          let i ← l.searchPrior seqno l.size head
          match l.data2 i with
          | none => some { l with head := l.next i }
          | some last =>
              if 0 < seqcmp last seqno then some (l.cutNode i loc seqno last (some seqno))
              else some { l with head := l.next i }
      removeNodes (l.size + 1) l' (some head)
    else some l

/-- The first number, which goes. -/
def getLostSeq (l : SndLossList) : Option (SndLossList × Option Nat) :=
  if l.length = 0 then some (l, none)
  else do
    let head ← l.head
    let first ← l.data1 head
    some (l.popHead head first, some first)

/-! ### What the arrays hold -/

structure Represents (l : SndLossList) (c : Nat) (runs : Runs) : Prop where
  pos : 0 < l.size
  small : l.size ≤ seqNoTh
  holds : Holds l.size c seqOf l.data1 l.data2 (links l.head l.next) runs
  length : l.length = total runs
  lastInsert : ∀ k, l.lastInsertPos = some k → ∃ r ∈ runs, slot l.size c r.1 = k

end SndLossList

end FusionFS.Udt
