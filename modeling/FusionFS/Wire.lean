import FusionFS.CString
import FusionFS.Lib.InputStream
import FusionFS.Lib.Protobuf
import Mathlib.Logic.Function.Basic

/-!
# Messages to and from the metadata servers

A request is one serialized `Package`, sent without its length. The server parses the result of every
`recv` as one whole package, and the client takes the result of one `recv` for the whole reply. The
status of a lookup is printed into two bytes, which have no room for its final zero.
-/

namespace FusionFS

open Protobuf

/-- The fields of a `Package` that clients and servers set. -/
structure Package where
  virtualPath : Option Bytes
  realFullPath : Option Bytes
  isDir : Option Bool
  operation : Option Nat
  replicaNo : Option Nat
  deriving DecidableEq

namespace Package

def empty : Package := ⟨none, none, none, none, none⟩

/-- An `int32` on the wire, from its 32 bits: the sign is extended to 64. -/
def int32Value (n : Nat) : Value := .varint (if n < 2 ^ 31 then n else n + (2 ^ 64 - 2 ^ 32))

def fields (p : Package) : List (Nat × Value) :=
  (p.virtualPath.map fun v => (1, .bytes v)).toList ++
    (p.realFullPath.map fun v => (3, .bytes v)).toList ++
    (p.isDir.map fun v => (4, .varint v.toNat)).toList ++
    (p.operation.map fun v => (8, int32Value v)).toList ++
    (p.replicaNo.map fun v => (9, int32Value v)).toList

/-- What `MergePartialFromCodedStream` does with a field. -/
def setField (p : Package) : Nat × Value → Package
  | (1, .bytes v) => { p with virtualPath := some v }
  | (3, .bytes v) => { p with realFullPath := some v }
  | (4, .varint n) => { p with isDir := some (n ≠ 0) }
  | (8, .varint n) => { p with operation := some (n % word) }
  | (9, .varint n) => { p with replicaNo := some (n % word) }
  | _ => p

/-- `SerializeAsString`. -/
def serialize (p : Package) : Bytes := putFields p.fields

/-- `ParseFromArray` and `ParseFromString`, whose result nobody looks at. -/
def parse (data : Bytes) : Package := readFields setField (data.length + 1) empty data

/-- The getters give defaults for what is not there. -/
def virtualpath (p : Package) : Bytes := p.virtualPath.getD []

def realfullpath (p : Package) : Bytes := p.realFullPath.getD []

def op (p : Package) : Nat := p.operation.getD 0

end Package

/-- `MAX_MSG_SIZE`, of the server and of the client. -/
def maxMsgSize : Nat := 1024

theorem maxMsgSize_pos : 0 < maxMsgSize := by decide

/-- The bytes that `strlen` counts. -/
def cString (data : Bytes) : Bytes := data.takeWhile (· != 0)

theorem zero_notMem_cString (data : Bytes) : 0 ∉ cString data := by
  intro hmem
  have h := List.mem_takeWhile_imp hmem
  simp at h

theorem cString_eq_self {data : Bytes} : cString data = data ↔ 0 ∉ data := by
  constructor
  · intro h
    rw [← h]
    exact zero_notMem_cString data
  · intro h
    apply List.takeWhile_eq_self_iff.mpr
    intro c hc
    rw [bne_iff_ne]
    rintro rfl
    exact h hc

/-! ### The server -/

/-- The hash map of one server. -/
abbrev Store := Bytes → Option Bytes

/-- `sprintf("%02d", status)` for the states a lookup can end in. -/
def statusBuff (status : Int) : Bytes :=
  if status = -1 then cstr "-1" else if status = -2 then cstr "-2" else cstr "00"

/-- The bytes of an `int32_t`, the lowest first. -/
def int32Bytes (n : Int) : Bytes :=
  (List.range 4).map fun i => UInt8.ofNat (n % 2 ^ 32 / 256 ^ i % 256).toNat

def hbLookup (st : Store) (p : Package) : Bytes := (st p.virtualpath).getD (cstr "Empty")

def hbInsert (st : Store) (p : Package) : Store × Int :=
  (Function.update st p.virtualpath (some p.serialize), 0)

def hbRemove (st : Store) (p : Package) : Store × Int :=
  (Function.update st p.virtualpath none, if (st p.virtualpath).isSome then 0 else -2)

/-- What lies behind `char statusBuff[2]` while a lookup is answered. `sprintf` puts its zero there. -/
structure Frame where
  /-- What `append` finds between the two characters and the next zero. -/
  behind : Bytes
  /-- What the zero makes of the result. -/
  struck : Bytes → Bytes

/-- The zero falls on a byte that nothing else uses, and is still there when the status is appended. -/
structure Frame.Spare (frame : Frame) : Prop where
  behind : frame.behind = []
  struck : ∀ result, frame.struck result = result

/-- Padding behind the two bytes. -/
def Frame.padded : Frame := ⟨[], id⟩

theorem Frame.spare_padded : Frame.padded.Spare := ⟨rfl, fun _ => rfl⟩

/-- `sAllInOne`, as `generalSendBack` sends it. -/
def Frame.sAllInOne (frame : Frame) (status : Int) (result : Bytes) : Bytes :=
  cString (cString (statusBuff status ++ frame.behind) ++ frame.struck result)

/-- `dataService` on what one `recv` has put into the zeroed buffer, without replicas. The second
component is the reply, if there is one. -/
def dataService (frame : Frame) (st : Store) (received : Bytes) : Store × Option Bytes :=
  let buff := received ++ List.replicate (maxMsgSize - received.length) 0
  let package := Package.parse buff
  let noKey := package.virtualpath = []
  match package.op with
  | 1 =>
      let result := if noKey then [] else hbLookup st package
      let status := if noKey then -1 else if result = cstr "Empty" then -2 else 0
      (st, some (frame.sAllInOne status result))
  | 2 =>
      let res := if noKey then (st, -1) else hbRemove st package
      (res.1, some (int32Bytes res.2))
  | 3 =>
      let res := if noKey then (st, -1) else hbInsert st package
      (res.1, some (int32Bytes res.2))
  | _ => (st, none)

theorem cString_status (status : Int) : cString (statusBuff status) = statusBuff status := by
  apply cString_eq_self.mpr
  rw [statusBuff]
  split_ifs
  · decide
  · decide
  · decide

/-- With a spare byte behind it, the status comes before the result. -/
theorem Frame.Spare.sAllInOne_eq {frame : Frame} (h : frame.Spare) (status : Int) (result : Bytes) :
    frame.sAllInOne status result = cString (statusBuff status ++ result) := by
  rw [Frame.sAllInOne, h.behind, h.struck, List.append_nil, cString_status]

/-! ### The connection -/

/-- How TCP hands over a stream to a reader with a buffer of the given size. -/
structure Segmentation (size : Nat) where
  chunks : Bytes → List Bytes
  flatten_chunks : ∀ stream, (chunks stream).flatten = stream
  ne_nil : ∀ stream, ∀ chunk ∈ chunks stream, chunk ≠ []
  length_le : ∀ stream, ∀ chunk ∈ chunks stream, chunk.length ≤ size

theorem Segmentation.chunks_nil {size : Nat} (seg : Segmentation size) : seg.chunks [] = [] := by
  by_contra hne
  obtain ⟨chunk, chunks, hcons⟩ := List.exists_cons_of_ne_nil hne
  have hflat := seg.flatten_chunks []
  rw [hcons, List.flatten_cons] at hflat
  apply seg.ne_nil [] chunk
  · rw [hcons]
    exact List.mem_cons_self
  · exact (List.append_eq_nil_iff.mp hflat).1

/-- The read loop of the server on the bytes of one request: its replies, in order. -/
def serve (frame : Frame) (toServer : Segmentation maxMsgSize) (st : Store) (request : Bytes) :
    Store × List Bytes :=
  (toServer.chunks request).foldl (fun s chunk =>
    ((dataService frame s.1 chunk).1, s.2 ++ (dataService frame s.1 chunk).2.toList)) (st, [])

/-- One `recv` of the client. It waits forever if nothing comes. -/
def recv {size : Nat} (toClient : Segmentation size) (replies : List Bytes) : Option Bytes :=
  (toClient.chunks replies.flatten).head?

/-! ### The client -/

/-- A `char` as an `int`, in 64 bits. -/
def signExtend (c : UInt8) : UInt64 := if c < 128 then c.toUInt64 else c.toUInt64 - 256

def myhash (str : Bytes) (mod : Nat) : Nat :=
  (str.foldl (fun (hash : UInt64) c => signExtend c + (hash <<< 6) + (hash <<< 16) - hash) 0).toNat
    % mod

/-- The package of `c_zht_insert2`. -/
def insertPackage (key value : Bytes) : Package where
  virtualPath := some key
  realFullPath := if value = [] then none else some value
  isDir := some true
  operation := some 3
  replicaNo := some 5

/-- The package of `c_zht_lookup2`, as `ZHTClient::lookup` sends it. -/
def lookupPackage (key : Bytes) : Package where
  virtualPath := some key
  realFullPath := none
  isDir := some true
  operation := some 1
  replicaNo := some 3

/-- The package of `c_zht_remove2`, as `ZHTClient::remove` sends it. -/
def removePackage (key : Bytes) : Package where
  virtualPath := some key
  realFullPath := none
  isDir := none
  operation := some 2
  replicaNo := some 3

/-- The `int32_t` in a buffer of four bytes. -/
def readInt32 (buf : Bytes) : Int :=
  let n : Nat := (buf.zipIdx.map fun b => b.1.toNat * 256 ^ b.2).sum
  if n < 2 ^ 31 then n else n - 2 ^ 32

def atoi (s : Bytes) : Int :=
  let s := s.dropWhile InputStream.isSpace
  let digits (s : Bytes) : Nat :=
    (s.takeWhile InputStream.isDigit).foldl (fun n c => 10 * n + (c.toNat - 48)) 0
  match s with
  | 45 :: s => -digits s
  | 43 :: s => digits s
  | s => digits s

/-- The string in a zeroed buffer of `MAX_MSG_SIZE` bytes after a `recv`. A buffer without a zero is
read past its end. -/
def receivedString (received : Bytes) : Option Bytes :=
  if received.length < maxMsgSize ∨ 0 ∈ received then some (cString received) else none

end FusionFS
