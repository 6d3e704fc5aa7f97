import FusionFS.Lib.Chain
import FusionFS.Wire
import Mathlib.Data.List.Perm.Basic

/-!
# The hash table under a server

A bucket holds the address of the first pair of its chain, and new pairs go to the end. Growing the
table moves every pair to the front of its new bucket. With a file behind it, the table appends each
pair it writes, crosses out the one it replaces, and rewrites the whole file now and then.
-/

namespace FusionFS

open Chained

/-- `kvpair`, less its `next`. -/
structure Pair where
  key : Bytes
  val : Bytes
  pos : Nat
  deriving DecidableEq

/-- A file opened for update. Reading and writing share the position. -/
structure Stream where
  content : Bytes
  pos : Nat
  deriving DecidableEq

namespace Stream

def seekEnd (f : Stream) : Stream := { f with pos := f.content.length }

/-- What is written covers what was there; a gap behind the end is filled with zeros. -/
def puts (f : Stream) (s : Bytes) : Stream where
  content := f.content.take f.pos ++ List.replicate (f.pos - f.content.length) 0 ++ s ++
    f.content.drop (f.pos + s.length)
  pos := f.pos + s.length

/-- `fgetc`. `none` is `EOF`. -/
def fgetc (f : Stream) : Option UInt8 × Stream :=
  match f.content[f.pos]? with
  | some c => (some c, { f with pos := f.pos + 1 })
  | none => (none, f)

end Stream

def tab : UInt8 := 9

def tilde : UInt8 := 126

/-- `fprintf(dbfile, "%s\t%s\t", key, val)`. -/
def record (key val : Bytes) : Bytes := cString key ++ [tab] ++ cString val ++ [tab]

/-- `hash`. `SIZE_OF_LONG_LONG_INT` is not defined, so the constants are those of the other branch. -/
def hash (k : Bytes) : UInt64 := k.foldl (fun x c => (x ^^^ signExtend c) * 2166136261) 16777619

structure NoVoHT where
  size : Nat
  kvpairs : Nat → Option Nat
  heap : Heap Pair
  /-- The address the next `new` returns. -/
  fresh : Nat
  numEl : Int
  dbfile : Option Stream
  filename : Bytes
  nRem : Int
  magicNumber : Int

namespace NoVoHT

/-- `hash(k)%size`. -/
def bucketOf (k : Bytes) (size : Nat) : Nat := (hash k).toNat % size

/-- What a file operation returns when there is no file. -/
def noFile (t : NoVoHT) : Int := if t.filename = [] then 0 else -2

def write (t : NoVoHT) (p : Nat) : Option (NoVoHT × Int) :=
  match t.dbfile with
  | none => some (t, t.noFile)
  | some f => (t.heap p).map fun node =>
      ({ t with
          heap := Function.update t.heap p
            (some ⟨node.next, { node.data with pos := f.seekEnd.pos }⟩)
          dbfile := some (f.seekEnd.puts (record node.data.key node.data.val)) }, 0)

def mark (t : NoVoHT) (position : Nat) : NoVoHT × Int :=
  match t.dbfile with
  | none => (t, t.noFile)
  | some f => ({ t with dbfile := some ({ f with pos := position }.puts [tilde]) }, 0)

/-- The inner loop of `writeFile`, over one chain. -/
def writeChain : Nat → Option Nat → Heap Pair × Stream → Option (Heap Pair × Stream)
  | _, none, s => some s
  | 0, some _, _ => none
  | fuel + 1, some cur, s =>
      match s.1 cur with
      | none => none
      | some node =>
          if node.data.key ≠ [] ∧ node.data.val ≠ [] then
            writeChain fuel node.next
              (Function.update s.1 cur (some ⟨node.next, { node.data with pos := s.2.pos }⟩),
                s.2.puts (record node.data.key node.data.val))
          else writeChain fuel node.next s

def writeFile (t : NoVoHT) : Option (NoVoHT × Int) :=
  match t.dbfile with
  | none => some (t, t.noFile)
  | some _ =>
      ((List.range t.size).foldlM (fun s i => writeChain t.fresh (t.kvpairs i) s)
        (t.heap, ⟨[], 0⟩)).map fun s => ({ t with heap := s.1, dbfile := some s.2 }, 0)

/-- The inner loop of `resize`, over one chain of the old table. -/
def relink (ns : Nat) : Nat → Option Nat → Heap Pair × (Nat → Option Nat) →
    Option (Heap Pair × (Nat → Option Nat))
  | _, none, s => some s
  | 0, some _, _ => none
  | fuel + 1, some cur, s =>
      match s.1 cur with
      | none => none
      | some node =>
          let pos := bucketOf node.data.key ns
          relink ns fuel node.next
            (Function.update s.1 cur (some ⟨s.2 pos, node.data⟩), Function.update s.2 pos (some cur))

/-- `resize`. `ns` is an `int`: past its range it is negative, and `new kvpair*[ns]` throws. -/
def resize (t : NoVoHT) (ns : Nat) : Option NoVoHT :=
  if ns < 2 ^ 31 then
    ((List.range t.size).foldlM (fun s i => relink ns t.fresh (t.kvpairs i) s)
      (t.heap, fun _ => none)).map fun s =>
        { t with size := ns, heap := s.1, kvpairs := s.2, numEl := 0 }
  else none

/-- The loop of `put` from the first pair on, with the test behind it: the pair that has the key, or
the last one. -/
def seek (h : Heap Pair) (k : Bytes) : Nat → Nat → Option (Bool × Nat)
  | 0, _ => none
  | fuel + 1, cur =>
      match h cur with
      | none => none
      | some node =>
          match node.next with
          | some next => if k = node.data.key then some (true, cur) else seek h k fuel next
          | none => some (decide (k = node.data.key), cur)

/-- `cur->val = v; mark(cur->pos); return write(cur)`. -/
def overwrite (t : NoVoHT) (cur : Nat) (v : Bytes) : Option (NoVoHT × Int) :=
  (t.heap cur).bind fun node =>
    ({ t with
        heap := Function.update t.heap cur (some ⟨node.next, { node.data with val := v }⟩) }.mark
      node.data.pos).1.write cur

/-- `cur->next = add; numEl++; return write(add)`. -/
def linkBehind (t : NoVoHT) (cur add : Nat) (data : Pair) : Option (NoVoHT × Int) :=
  (t.heap cur).bind fun node =>
    { t with
        heap := Function.update (Function.update t.heap add (some ⟨none, data⟩)) cur
          (some ⟨some add, node.data⟩)
        fresh := add + 1
        numEl := t.numEl + 1 }.write add

/-- `put`, once the table has grown. The pair made for an update is deleted again. -/
def insert (t : NoVoHT) (k v : Bytes) : Option (NoVoHT × Int) :=
  let slot := bucketOf k t.size
  match t.kvpairs slot with
  | none =>
      { t with
          kvpairs := Function.update t.kvpairs slot (some t.fresh)
          heap := Function.update t.heap t.fresh (some ⟨none, ⟨k, v, 0⟩⟩)
          fresh := t.fresh + 1
          numEl := t.numEl + 1 }.write t.fresh
  | some first =>
      (seek t.heap k t.fresh first).bind fun found =>
        if found.1 then t.overwrite found.2 v else t.linkBehind found.2 t.fresh ⟨k, v, 0⟩

/-- `put`. `grow` is the outcome of the tests `numEl >= size*resizeNum` and `resizeNum !=0`. -/
def put (grow : Bool) (t : NoVoHT) (k v : Bytes) : Option (NoVoHT × Int) :=
  (if grow then t.resize (t.size * 2) else some t).bind fun t => t.insert k v

/-- The loop of `get`. -/
def getLoop (h : Heap Pair) (k : Bytes) : Nat → Option Nat → Option (Option Bytes)
  | _, none => some none
  | 0, some _ => none
  | fuel + 1, some cur =>
      match h cur with
      | none => none
      | some node =>
          if k = node.data.key then some (some node.data.val) else getLoop h k fuel node.next

/-- `get`. The inner `none` is `NULL`. -/
def get (t : NoVoHT) (k : Bytes) : Option (Option Bytes) :=
  if k = [] then some none else getLoop t.heap k t.fresh (t.kvpairs (bucketOf k t.size))

/-- The loop of `remove`: the pair with the key, and the one before it. -/
def seekPred (h : Heap Pair) (k : Bytes) : Nat → Nat → Option (Option (Nat × Nat))
  | 0, _ => none
  | fuel + 1, cur =>
      match h cur with
      | none => none
      | some node =>
          match node.next with
          | none => some none
          | some r =>
              match h r with
              | none => none
              | some rest => if k = rest.data.key then some (some (cur, r)) else seekPred h k fuel r

/-- `nRem++` and what follows it. -/
def removed (t : NoVoHT) (ret : Int) : Option (NoVoHT × Int) :=
  if t.nRem + 1 = t.magicNumber then
    (writeFile { t with nRem := t.nRem + 1 }).map fun s => ({ s.1 with nRem := 0 }, ret + s.2)
  else some ({ t with nRem := t.nRem + 1 }, ret)

def remove (t : NoVoHT) (k : Bytes) : Option (NoVoHT × Int) :=
  let loc := bucketOf k t.size
  match t.kvpairs loc with
  | none => some (t, -1)
  | some cur => (t.heap cur).bind fun node =>
      if k = node.data.key then
        let s := { t with
          kvpairs := Function.update t.kvpairs loc node.next
          numEl := t.numEl - 1 }.mark node.data.pos
        { s.1 with heap := Function.update s.1.heap cur none }.removed s.2
      else
        (seekPred t.heap k t.fresh cur).bind fun
          | none => some (t, -1)
          | some (before, r) => (t.heap before).bind fun pred => (t.heap r).bind fun node =>
              let s := { t with
                heap := Function.update t.heap before (some ⟨node.next, pred.data⟩) }.mark
                  node.data.pos
              { s.1 with
                  heap := Function.update s.1.heap r none
                  numEl := t.numEl - 1 }.removed s.2

/-! ### Opening a table -/

/-- `readTabString`. `buf` is what has been read, `room` how much more may be. -/
def readTabString : Nat → Bytes → Stream → Option Bytes × Stream
  | room, buf, f =>
      match f.fgetc with
      | (none, f) => (if buf = [] then none else some buf, f)
      | (some t, f) =>
          if t = 255 then (if buf = [] then none else some buf, f)  -- (char) EOF
          else match room with
            | 0 => (if buf = [] then none else some buf, f)
            | room + 1 => if t = tab then (some buf, f) else readTabString room (buf ++ [t]) f

/-- The loop of `readFile`. `full` is the test that makes `put` grow the table. -/
def readLoop (full : Int → Nat → Bool) : Nat → NoVoHT → Option NoVoHT
  | 0, _ => none
  | fuel + 1, t =>
      match t.dbfile with
      | none => some t
      | some f =>
          match readTabString 300 [] f with
          | (none, f) => some { t with dbfile := some f }
          | (some s, f) =>
              let key := cString s
              match readTabString 300 [] f with
              | (none, f) => some { t with dbfile := some f }
              | (some v, f) =>
                  let t := { t with dbfile := some f }
                  if key.head? = some tilde then readLoop full fuel t
                  else (t.put (full t.numEl t.size) key (cString v)).bind fun s =>
                    readLoop full fuel s.1

/-- `readFile`. Every round but the last moves the position. -/
def readFile (full : Int → Nat → Bool) (t : NoVoHT) : Option NoVoHT :=
  match t.dbfile with
  | none => some t
  | some f => (readLoop full (f.content.length + 2) t).bind fun t => t.writeFile.map Prod.fst

/-- `fopen` for update, making the file if there is none. `disk` is what it holds. -/
def fopen (f : Bytes) (disk : Bytes) : Option Stream := if f = [] then none else some ⟨disk, 0⟩

/-- The constructor from a file name, the number of buckets, and the number of removals after which
the file is rewritten. -/
def construct (full : Int → Nat → Bool) (f disk : Bytes) (s : Nat) (m : Int) : Option NoVoHT :=
  readFile full
    { size := s
      kvpairs := fun _ => none
      heap := fun _ => none
      fresh := 0
      numEl := 0
      dbfile := fopen f disk
      filename := f
      nRem := 0
      magicNumber := m }

end NoVoHT

end FusionFS
