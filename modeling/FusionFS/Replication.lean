import FusionFS.Lib.Follow
import FusionFS.Lib.Run
import FusionFS.RoundTrip
import Mathlib.Data.List.Forall2

/-!
# Replicas of one server

A server with replicas sends the packages that clients mark as original on, over one socket to each
of its `Replicas`, and reads no answer. Nothing on these links says where a message ends either, and
clients do not mark removals.
-/

namespace FusionFS

open Protobuf Package Transition Follow

/-- A string of C. -/
abbrev CStr := {s : Bytes // 0 ∉ s}

/-- `c_zht_insert2` and `c_zht_remove2`. -/
inductive TableCall where
  | insert (key value : CStr)
  | remove (key : CStr)
  deriving DecidableEq

namespace TableCall

def key : TableCall → Bytes
  | insert key _ => key
  | remove key => key

/-- What the key has after the call. -/
def value : TableCall → Option Bytes
  | insert _ value => some value
  | remove _ => none

def package : TableCall → Package
  | insert key value => insertPackage key value
  | remove key => removePackage key

/-- What goes to the server. A call without a key returns before. -/
def request (call : TableCall) : Bytes := if call.key = [] then [] else cString call.package.serialize

end TableCall

/-- `general_replica`, up to the socket. -/
def generalReplica (p : Package) : Bytes := cString ({ p with replicaNo := some 3 }).serialize

/-- The last part of `dataService`: what goes to each replica, with one `recv` in the buffer. -/
def forwarded (received : Bytes) : List Bytes :=
  let package := Package.parse (received ++ List.replicate (maxMsgSize - received.length) 0)
  if package.replicaNo.getD 0 = 5 ∧ (package.op = 3 ∨ package.op = 2) then [generalReplica package]
  else []

variable {R : Type}

/-- A server, the processes that keep replicas for it, and what it has sent on each link and nobody
has received, by `send`. -/
structure Replicated (R : Type) where
  primary : Store
  table : R → Store
  link : Nat → List Bytes

/-- The read loop of the server after one `recv`. -/
def primaryRecv (frame : Frame) (numReplicas : Nat) (s : Replicated R) (chunk : Bytes) : Replicated R where
  primary := (dataService frame s.primary chunk).1
  table := s.table
  link i := if i < numReplicas then s.link i ++ forwarded chunk else s.link i

/-- What is left after `size` bytes. -/
def dropBytes : Nat → List Bytes → List Bytes
  | 0, sends => sends
  | _ + 1, [] => []
  | size + 1, m :: sends =>
      if size + 1 < m.length then m.drop (size + 1) :: sends else dropBytes (size + 1 - m.length) sends

/-- A request of a client, or a `recv` of a replica from its link. -/
inductive ReplicaEvent where
  | request (toServer : Segmentation maxMsgSize) (call : TableCall)
  | recv (i size : Nat)

variable [DecidableEq R]

/-- `host` tells which process listens where `Replicas[i]` is. -/
def replicaStep (frame : Frame) (numReplicas : Nat) (host : Nat → R) (s : Replicated R) :
    ReplicaEvent → Option (Replicated R)
  | .request toServer call =>
      some ((toServer.chunks call.request).foldl (primaryRecv frame numReplicas) s)
  | .recv i size =>
      if 0 < size ∧ size ≤ maxMsgSize ∧ size ≤ (s.link i).flatten.length then
        let received := (s.link i).flatten.take size
        some { s with
          table := Function.update s.table (host i)
            (dataService frame (s.table (host i)) received).1
          link := Function.update s.link i (dropBytes size (s.link i)) }
      else none

/-- Empty tables, and nothing sent. -/
def Replicated.start : Replicated R := ⟨fun _ => none, fun _ _ => none, fun _ => []⟩

/-- What a table has for a key. -/
def tableValue (st : Store) (key : Bytes) : Option Bytes :=
  (st key).map fun stored => (Package.parse stored).realfullpath

/-- The calls that reach the server. -/
def handled (events : List ReplicaEvent) : List TableCall :=
  (events.filterMap fun
    | .request _ call => some call
    | .recv _ _ => none).filter (·.key ≠ [])

/-- A message arrives with a `recv` of its own. -/
def ReplicaEvent.Whole (s : Replicated R) : ReplicaEvent → Prop
  | .request toServer call => call.request ≠ [] → toServer.chunks call.request = [call.request]
  | .recv i size => (s.link i).head?.map List.length = some size

instance (s : Replicated R) (event : ReplicaEvent) : Decidable (event.Whole s) := by
  cases event <;> unfold ReplicaEvent.Whole <;> infer_instance

/-- The replicas have what the server has, for every key of the calls. -/
def Agree (numReplicas : Nat) (host : Nat → R) (calls : List TableCall) (s : Replicated R) : Prop :=
  ∀ i < numReplicas, ∀ call ∈ calls,
    tableValue (s.table (host i)) call.key = tableValue s.primary call.key

/-- The last call on a key that was ever inserted is an insert. -/
def Standing (calls : List TableCall) : Prop :=
  ∀ call ∈ calls, call.value.isSome →
    ∃ later, (calls.filter (·.key = call.key)).getLast? = some later ∧ later.value.isSome

/-! ### Calls on a map -/

/-- The map after the calls. -/
def current (calls : List TableCall) : Bytes → Option Bytes :=
  calls.foldl (fun m call => Function.update m call.key call.value) fun _ => none

/-- The map that those have who see the inserts alone. -/
def inserted (calls : List TableCall) : Bytes → Option Bytes :=
  calls.foldl (fun m call => if call.value.isSome then Function.update m call.key call.value else m)
    fun _ => none

section Calls

variable (calls : List TableCall) (call : TableCall) (k : Bytes)

theorem current_append :
    current (calls ++ [call]) = Function.update (current calls) call.key call.value := by
  rw [current, List.foldl_append]
  rfl

theorem inserted_append : inserted (calls ++ [call]) =
    if call.value.isSome then Function.update (inserted calls) call.key call.value
    else inserted calls := by
  rw [inserted, List.foldl_append]
  rfl

theorem current_eq :
    current calls k = (calls.filter (·.key = k)).getLast?.bind TableCall.value := by
  induction calls using List.reverseRecOn with
  | nil => rfl
  | append_singleton calls call ih =>
      rw [current_append, List.filter_append]
      by_cases hk : call.key = k
      · subst hk
        simp
      · rw [Function.update_of_ne (Ne.symm hk), ih]
        simp [hk]

theorem inserted_eq_none_iff :
    inserted calls k = none ↔ ∀ call ∈ calls, call.key = k → call.value = none := by
  induction calls using List.reverseRecOn with
  | nil => exact iff_of_true rfl (fun _ h => nomatch h)
  | append_singleton calls call ih =>
      rw [inserted_append]
      by_cases hk : call.key = k
      · subst hk
        cases hv : call.value <;> simp [hv, ih, or_imp, forall_and]
      · have hsame : (if call.value.isSome then Function.update (inserted calls) call.key call.value
            else inserted calls) k = inserted calls k := by
          split
          · exact Function.update_of_ne (Ne.symm hk) ..
          · rfl
        rw [hsame, ih]
        simp [hk, or_imp, forall_and]

variable {calls call k}

theorem inserted_of_last (h : (calls.filter (·.key = k)).getLast? = some call)
    (hv : call.value.isSome) : inserted calls k = call.value := by
  induction calls using List.reverseRecOn with
  | nil => cases h
  | append_singleton calls last ih =>
      rw [List.filter_append] at h
      rw [inserted_append]
      by_cases hk : last.key = k
      · have hlast : last = call := by simpa [hk] using h
        rw [hlast, if_pos hv, ← hk, hlast, Function.update_self]
      · have hrest := ih (by simpa [hk] using h)
        split
        · rw [Function.update_of_ne (Ne.symm hk), hrest]
        · exact hrest

/-- Those who see the inserts alone have the right map exactly when no removal is the last call. -/
theorem standing_iff :
    (∀ call ∈ calls, inserted calls call.key = current calls call.key) ↔ Standing calls := by
  constructor
  · intro h call hcall hv
    have hsome : inserted calls call.key ≠ none := by
      rw [Ne, inserted_eq_none_iff]
      intro hnone
      rw [hnone call hcall rfl] at hv
      cases hv
    rw [h call hcall, current_eq] at hsome
    obtain ⟨v, hv⟩ := Option.ne_none_iff_exists'.mp hsome
    obtain ⟨later, hlater, hval⟩ := Option.bind_eq_some_iff.mp hv
    exact ⟨later, hlater, by rw [hval]; rfl⟩
  · intro h call hcall
    cases hins : inserted calls call.key with
    | some v =>
        have hsome : inserted calls call.key ≠ none := by
          rw [hins]
          exact Option.some_ne_none v
        rw [Ne, inserted_eq_none_iff] at hsome
        push Not at hsome
        obtain ⟨other, hother, hkey, hv⟩ := hsome
        obtain ⟨later, hlater, hval⟩ := h other hother (Option.isSome_iff_ne_none.mpr hv)
        rw [hkey] at hlater
        rw [← hins, inserted_of_last hlater hval, current_eq, hlater, Option.bind_some]
    | none =>
        rw [current_eq]
        symm
        rw [Option.bind_eq_none_iff]
        intro later hlater
        have hmem := List.mem_of_getLast? hlater
        obtain ⟨hin, hkey⟩ := List.mem_filter.mp hmem
        exact (inserted_eq_none_iff calls call.key).mp hins later hin (of_decide_eq_true hkey)

end Calls

/-! ### One message -/

section Messages

variable {key value : Bytes} {call : TableCall}

/-- What a replica gets of an insert. -/
def copyPackage (key value : Bytes) : Package := { insertPackage key value with replicaNo := some 3 }

theorem CleanEntry.copyPackage (h : CleanEntry key value) : (copyPackage key value).Clean :=
  { h.insertPackage with
    replicaNo := by
      intro n hn
      obtain rfl := Option.some.inj hn
      decide }

theorem TableCall.zero_notMem_package (hkey : call.key ≠ []) : 0 ∉ call.package.serialize := by
  cases call with
  | insert key value =>
      apply zero_notMem_putFields
      apply zerofree_fields
      · rintro v ⟨⟩
        exact ⟨hkey, key.2⟩
      · intro v hv
        obtain ⟨rfl, hvalue⟩ := mem_realFullPath_insertPackage hv
        exact ⟨hvalue, value.2⟩
      · rintro b ⟨⟩
        rfl
      · rintro n ⟨⟩
        decide
      · rintro n ⟨⟩
        decide
  | remove key =>
      apply zero_notMem_putFields
      apply zerofree_fields
      · rintro v ⟨⟩
        exact ⟨hkey, key.2⟩
      · exact fun v hv => absurd hv (Option.not_mem_none v)
      · exact fun b hb => absurd hb (Option.not_mem_none b)
      · rintro n ⟨⟩
        decide
      · rintro n ⟨⟩
        decide

theorem TableCall.request_eq (hkey : call.key ≠ []) : call.request = call.package.serialize := by
  rw [request, if_neg hkey, cString_eq_self.mpr (zero_notMem_package hkey)]

theorem cleanEntry_of_insert {key value : CStr} (hkey : key.1 ≠ [])
    (hlen : (insertPackage key value).serialize.length ≤ maxMsgSize) :
    CleanEntry key.1 value.1 :=
  cleanEntry_of_length hkey key.2 value.2 hlen

theorem TableCall.clean_package (hkey : call.key ≠ [])
    (hlen : call.package.serialize.length ≤ maxMsgSize) : call.package.Clean := by
  cases call with
  | insert key value => exact (cleanEntry_of_insert hkey hlen).insertPackage
  | remove key =>
      have hmem : (1, Value.bytes key.1) ∈ (removePackage key).fields := by
        simp [fields, removePackage]
      have hsize : maxMsgSize < word := by decide
      have hle : key.1.length ≤ (removePackage key).serialize.length := length_le_of_mem hmem
      exact clean_removePackage ⟨hkey, key.2, (hle.trans hlen).trans_lt hsize⟩

theorem tableValue_update (st : Store) {p : Package} (hp : p.Clean) :
    tableValue (Function.update st key (some p.serialize)) =
      Function.update (tableValue st) key (some p.realfullpath) := by
  have hparse := hp.parse_serialize (.inl rfl)
  rw [List.append_nil] at hparse
  funext k
  by_cases hk : k = key
  · subst hk
    rw [tableValue, Function.update_self, Function.update_self, Option.map_some, hparse]
  · rw [tableValue, Function.update_of_ne hk, Function.update_of_ne hk]
    rfl

theorem tableValue_remove (st : Store) : tableValue (Function.update st key none) =
    Function.update (tableValue st) key none := by
  funext k
  by_cases hk : k = key
  · subst hk
    rw [tableValue, Function.update_self, Function.update_self]
    rfl
  · rw [tableValue, Function.update_of_ne hk, Function.update_of_ne hk]
    rfl

theorem tableValue_dataService (frame : Frame) (st : Store) (hkey : call.key ≠ [])
    (hlen : call.package.serialize.length ≤ maxMsgSize) :
    tableValue (dataService frame st call.package.serialize).1 =
      Function.update (tableValue st) call.key call.value := by
  have hclean := TableCall.clean_package hkey hlen
  cases call with
  | insert key value =>
      change tableValue (dataService frame st (insertPackage key value).serialize).1 = _
      rw [dataService_insertPackage frame st (cleanEntry_of_insert hkey hlen),
        tableValue_update st (cleanEntry_of_insert hkey hlen).insertPackage,
        realfullpath_insertPackage]
      rfl
  | remove key =>
      have hop : (removePackage key).op = 2 := rfl
      have hpath : (removePackage key).virtualpath = key.1 := rfl
      change tableValue (dataService frame st (removePackage key).serialize).1 = _
      have hremoved : (dataService frame st (removePackage key).serialize).1 =
          Function.update st key.1 none := by
        have hne : key.1 ≠ [] := hkey
        have hparse : parse ((removePackage key).serialize ++
            List.replicate (maxMsgSize - (removePackage key).serialize.length) 0) =
              removePackage key := hclean.parse_received
        simp only [dataService, hparse, hop, hpath, if_neg hne, hbRemove]
      rw [hremoved, tableValue_remove]
      rfl

theorem tableValue_dataService_copy (frame : Frame) (st : Store) (h : CleanEntry key value) :
    tableValue (dataService frame st (copyPackage key value).serialize).1 =
      Function.update (tableValue st) key (some value) := by
  rw [dataService_of_insert frame st h.copyPackage rfl h.key.1, tableValue_update st h.copyPackage]
  exact congrArg (fun v => Function.update (tableValue st) key (some v))
    (realfullpath_insertPackage key value)

theorem forwarded_package (hkey : call.key ≠ [])
    (hlen : call.package.serialize.length ≤ maxMsgSize) :
    forwarded call.package.serialize = match call with
      | .insert key value => [(copyPackage key value).serialize]
      | .remove _ => [] := by
  have hclean := TableCall.clean_package hkey hlen
  rw [forwarded, hclean.parse_received]
  cases call with
  | insert key value =>
      have hcopy : cString (copyPackage key value).serialize = (copyPackage key value).serialize :=
        cString_eq_self.mpr (cleanEntry_of_insert hkey hlen).copyPackage.zero_notMem_serialize
      exact congrArg (fun m => [m]) hcopy
  | remove key => rfl

end Messages

/-! ### The links -/

theorem dropBytes_whole {m : Bytes} (hm : m ≠ []) (sends : List Bytes) :
    dropBytes m.length (m :: sends) = sends := by
  obtain ⟨size, hsize⟩ : ∃ size, m.length = size + 1 :=
    Nat.exists_eq_succ_of_ne_zero fun h => hm (List.length_eq_zero_iff.mp h)
  rw [hsize, dropBytes, if_neg (by omega), hsize, Nat.sub_self]
  cases sends <;> rfl

/-- A message on a link, as the write it stands for. -/
def IsCopy (m : Bytes) (e : Bytes × Option Bytes) : Prop :=
  ∃ value, e.2 = some value ∧ CleanEntry e.1 value ∧ m = (copyPackage e.1 value).serialize

section Runs

variable {frame : Frame} {n : Nat} {host : Nat → R} {s s' : Replicated R} {calls : List TableCall}
  {pending : Nat → List (Bytes × Option Bytes)}

/-- The server has the map of the calls, and the replicas follow the inserts among them. -/
structure Tracks (n : Nat) (host : Nat → R) (calls : List TableCall) (s : Replicated R)
    (pending : Nat → List (Bytes × Option Bytes)) : Prop where
  primary : tableValue s.primary = current calls
  link : ∀ i < n, List.Forall₂ IsCopy (s.link i) (pending i)
  unused : ∀ i, n ≤ i → s.link i = []
  follows : Follows host (· < n) (inserted calls) pending fun r => tableValue (s.table r)

omit [DecidableEq R] in
theorem Tracks.start : Tracks n host [] (.start : Replicated R) fun _ => [] where
  primary := rfl
  link _ _ := .nil
  unused _ _ := rfl
  follows := ⟨fun i _ front k v back heq => by simp at heq, fun _ _ _ _ => rfl⟩

omit [DecidableEq R] in
theorem Tracks.primaryRecv (h : Tracks n host calls s pending) {call : TableCall}
    (hkey : call.key ≠ []) (hlen : call.package.serialize.length ≤ maxMsgSize) :
    ∃ pending', Tracks n host (calls ++ [call]) (primaryRecv frame n s call.package.serialize) pending' := by
  have hprimary : tableValue (dataService frame s.primary call.package.serialize).1 =
      current (calls ++ [call]) := by
    rw [tableValue_dataService frame s.primary hkey hlen, h.primary, current_append]
  cases call with
  | insert key value =>
      have hcopy : IsCopy (copyPackage key value).serialize (key.1, some value.1) :=
        ⟨value, rfl, cleanEntry_of_insert hkey hlen, rfl⟩
      refine ⟨fun i => pending i ++ [(key.1, some value.1)], hprimary, ?_, ?_, ?_⟩
      · intro i hi
        rw [FusionFS.primaryRecv]
        dsimp only
        rw [if_pos hi, forwarded_package hkey hlen]
        exact List.rel_append (h.link i hi) (.cons hcopy .nil)
      · intro i hi
        rw [FusionFS.primaryRecv]
        dsimp only
        rw [if_neg (by omega), h.unused i hi]
      · rw [inserted_append]
        exact h.follows.send key.1 (some value.1) fun i _ => rfl
  | remove key =>
      refine ⟨pending, hprimary, ?_, ?_, ?_⟩
      · intro i hi
        rw [FusionFS.primaryRecv]
        dsimp only
        rw [if_pos hi, forwarded_package hkey hlen, List.append_nil]
        exact h.link i hi
      · intro i hi
        rw [FusionFS.primaryRecv]
        dsimp only
        rw [if_neg (by omega), h.unused i hi]
      · rw [inserted_append]
        exact h.follows

theorem handled_cons (event : ReplicaEvent) (events : List ReplicaEvent) :
    handled (event :: events) = handled [event] ++ handled events := by
  rw [handled, handled, handled, ← List.filter_append, ← List.filterMap_append,
    List.singleton_append]

theorem TableCall.request_ne_nil {call : TableCall} (hkey : call.key ≠ []) : call.request ≠ [] := by
  intro hnil
  have hmem : (1, Value.bytes call.key) ∈ call.package.fields := by
    cases call <;> simp [fields, TableCall.package, insertPackage, removePackage, TableCall.key]
  have hle : call.key.length ≤ call.package.serialize.length := length_le_of_mem hmem
  rw [← TableCall.request_eq hkey, hnil] at hle
  exact hkey (List.length_eq_zero_iff.mp (Nat.le_zero.mp hle))

omit [DecidableEq R] in
theorem Tracks.request (h : Tracks n host calls s pending) {toServer : Segmentation maxMsgSize}
    {call : TableCall}
    (hwhole : call.request ≠ [] → toServer.chunks call.request = [call.request]) :
    ∃ pending', Tracks n host (calls ++ handled [.request toServer call])
      ((toServer.chunks call.request).foldl (FusionFS.primaryRecv frame n) s) pending' := by
  by_cases hkey : call.key = []
  · have hempty : call.request = [] := by rw [TableCall.request, if_pos hkey]
    rw [hempty, toServer.chunks_nil]
    refine ⟨pending, ?_⟩
    simpa [handled, hkey] using h
  · have hrequest := TableCall.request_eq hkey
    have hchunks := hwhole (TableCall.request_ne_nil hkey)
    have hlen : call.package.serialize.length ≤ maxMsgSize := by
      rw [← hrequest]
      apply toServer.length_le call.request
      rw [hchunks]
      exact List.mem_singleton_self _
    have hhandled : handled [.request toServer call] = [call] := by simp [handled, hkey]
    rw [hchunks, List.foldl_cons, List.foldl_nil, hrequest, hhandled]
    exact h.primaryRecv hkey hlen

theorem Tracks.recv (h : Tracks n host calls s pending) {i size : Nat}
    (hwhole : (s.link i).head?.map List.length = some size)
    (hstep : replicaStep frame n host s (.recv i size) = some s') :
    ∃ pending', Tracks n host calls s' pending' := by
  unfold replicaStep at hstep
  dsimp only at hstep
  split at hstep
  · next hguard =>
    obtain rfl := Option.some.inj hstep
    obtain ⟨m, hhead, hsize⟩ := Option.map_eq_some_iff.mp hwhole
    obtain ⟨rest, hlink⟩ := List.head?_eq_some_iff.mp hhead
    have hi : i < n := by
      by_contra hge
      rw [h.unused i (by omega)] at hlink
      cases hlink
    have hcopies := h.link i hi
    rw [hlink] at hcopies
    obtain ⟨⟨key, _⟩, pendingRest, ⟨value, rfl, hentry, hm⟩, hrest, hpending⟩ :=
      List.forall₂_cons_left_iff.mp hcopies
    have hne : m ≠ [] := by
      rintro rfl
      rw [← hsize] at hguard
      exact absurd hguard.1 (Nat.lt_irrefl 0)
    have hreceived : (s.link i).flatten.take size = (copyPackage key value).serialize := by
      rw [hlink, List.flatten_cons, ← hsize, List.take_left, hm]
    have hrestOf : dropBytes size (s.link i) = rest := by
      rw [hlink, ← hsize, dropBytes_whole hne]
    rw [hreceived, hrestOf]
    refine ⟨Function.update pending i pendingRest, h.primary, ?_, ?_, ?_⟩
    · intro j hj
      dsimp only
      by_cases hji : j = i
      · subst hji
        rwa [Function.update_self, Function.update_self]
      · rw [Function.update_of_ne hji, Function.update_of_ne hji]
        exact h.link j hj
    · intro j hj
      dsimp only
      rw [Function.update_of_ne (by omega)]
      exact h.unused j hj
    · have hcopy : (fun r => tableValue (Function.update s.table (host i)
            (dataService frame (s.table (host i)) (copyPackage key value).serialize).1 r)) =
            Function.update (fun r => tableValue (s.table r)) (host i)
              (Function.update (tableValue (s.table (host i))) key (some value)) := by
        funext r
        by_cases hr : r = host i
        · subst hr
          rw [Function.update_self, Function.update_self, tableValue_dataService_copy frame _ hentry]
        · rw [Function.update_of_ne hr, Function.update_of_ne hr]
      dsimp only
      rw [hcopy]
      exact h.follows.receive hi hpending
  · cases hstep

/-- One event, where messages arrive whole. -/
theorem Tracks.step (h : Tracks n host calls s pending) {event : ReplicaEvent}
    (hwhole : event.Whole s) (hstep : replicaStep frame n host s event = some s') :
    ∃ pending', Tracks n host (calls ++ handled [event]) s' pending' := by
  cases event with
  | request toServer call =>
      obtain rfl := Option.some.inj hstep
      exact h.request hwhole
  | recv i size =>
      have hhandled : handled [.recv i size] = [] := rfl
      rw [hhandled, List.append_nil]
      exact h.recv hwhole hstep

theorem Tracks.run (h : Tracks n host calls s pending) {events : List ReplicaEvent}
    (hwhole : EachStep (replicaStep frame n host) (fun s event => event.Whole s) s events)
    (hrun : run (replicaStep frame n host) s events = some s') :
    ∃ pending', Tracks n host (calls ++ handled events) s' pending' := by
  induction events generalizing s calls pending with
  | nil =>
      cases hrun
      refine ⟨pending, ?_⟩
      rwa [show handled [] = [] from rfl, List.append_nil]
  | cons event events ih =>
      rw [run_cons, Option.bind_eq_some_iff] at hrun
      obtain ⟨mid, hmid, hrest⟩ := hrun
      obtain ⟨hevent, hevents⟩ := hwhole mid hmid
      obtain ⟨pendingMid, hmidTracks⟩ := h.step hevent hmid
      rw [handled_cons, ← List.append_assoc]
      exact ih hmidTracks hevents hrest

/-- **Replica agreement.** Where every message has its `recv`, and nothing is under way any more, the
replicas agree with the server exactly when no removal is the last call on a key. -/
theorem replicas_agree_iff (hn : 0 < n) {events : List ReplicaEvent}
    (hwhole : EachStep (replicaStep frame n host) (fun s event => event.Whole s) .start events)
    (hrun : run (replicaStep frame n host) .start events = some s) (hquiet : ∀ i < n, s.link i = []) :
    Agree n host (handled events) s ↔ Standing (handled events) := by
  obtain ⟨pending, h⟩ := Tracks.start.run hwhole hrun
  rw [List.nil_append] at h
  have hempty : ∀ i < n, pending i = [] := by
    intro i hi
    have hlink := h.link i hi
    rw [hquiet i hi] at hlink
    exact List.forall₂_nil_left_iff.mp hlink
  have hcopy : ∀ i < n, tableValue (s.table (host i)) = inserted (handled events) :=
    fun i hi => h.follows.copy_eq hempty hi
  rw [← standing_iff, Agree]
  constructor
  · intro hagree call hcall
    rw [← hcopy 0 hn, hagree 0 hn call hcall, h.primary]
  · intro hsame i hi call hcall
    rw [hcopy i hi, hsame call hcall, h.primary]

end Runs

/-- Requests that arrive with one `recv` each. -/
def wholeRequest (call : TableCall) : ReplicaEvent :=
  .request (firstUpTo maxMsgSize maxMsgSize_pos le_rfl) call

def putA : TableCall := .insert ⟨cstr "a", by decide⟩ ⟨cstr "1", by decide⟩

def removeA : TableCall := .remove ⟨cstr "a", by decide⟩

def putB : TableCall := .insert ⟨cstr "b", by decide⟩ ⟨cstr "2", by decide⟩

/-- A key that is removed and comes back. -/
theorem replicas_agree_iff_putAgain : ∃ s, run (replicaStep .padded 2 id) .start
      [wholeRequest putA, .recv 0 12, wholeRequest removeA, wholeRequest putA, .recv 1 12,
        .recv 0 12, .recv 1 12] = some s ∧
    (Agree 2 id [putA, removeA, putA] s ↔ Standing [putA, removeA, putA]) := by
  obtain ⟨s, hrun, hquiet⟩ := exists_run_of_any (show (run (replicaStep .padded 2 id) .start
      [wholeRequest putA, .recv 0 12, wholeRequest removeA, wholeRequest putA, .recv 1 12,
        .recv 0 12, .recv 1 12]).any
    (fun s : Replicated Nat => decide (s.link 0 = [] ∧ s.link 1 = [])) = true by decide +kernel)
  have hwhole : Guarded (replicaStep .padded 2 id) (fun s event => event.Whole s) .start
      [wholeRequest putA, .recv 0 12, wholeRequest removeA, wholeRequest putA, .recv 1 12,
        .recv 0 12, .recv 1 12] := by
    decide +kernel
  obtain ⟨hfirst, hsecond⟩ := of_decide_eq_true hquiet
  refine ⟨s, hrun, replicas_agree_iff (by decide) hwhole.eachStep hrun ?_⟩
  intro i hi
  rcases (show i = 0 ∨ i = 1 by omega) with rfl | rfl
  · exact hfirst
  · exact hsecond

/-- A removal is not sent on. And of two inserts that one `recv` returns, the first is lost. -/
theorem not_replicas_agree :
    (∃ s, run (replicaStep .padded 1 fun _ => ()) .start
        [wholeRequest putA, wholeRequest removeA, .recv 0 12] = some s ∧
      s.link 0 = [] ∧ tableValue (s.table ()) (cstr "a") = some (cstr "1") ∧
        tableValue s.primary (cstr "a") = none) ∧
    ∃ s, run (replicaStep .padded 1 fun _ => ()) .start
        [wholeRequest putA, wholeRequest putB, .recv 0 24] = some s ∧
      s.link 0 = [] ∧ tableValue (s.table ()) (cstr "a") = none ∧
        tableValue s.primary (cstr "a") = some (cstr "1") := by
  constructor
  · obtain ⟨s, hrun, hs⟩ := exists_run_of_any (show (run (replicaStep .padded 1 fun _ => ()) .start
        [wholeRequest putA, wholeRequest removeA, .recv 0 12]).any
      (fun s : Replicated Unit => decide (s.link 0 = [] ∧
        tableValue (s.table ()) (cstr "a") = some (cstr "1") ∧
          tableValue s.primary (cstr "a") = none)) = true by decide +kernel)
    exact ⟨s, hrun, of_decide_eq_true hs⟩
  · obtain ⟨s, hrun, hs⟩ := exists_run_of_any (show (run (replicaStep .padded 1 fun _ => ()) .start
        [wholeRequest putA, wholeRequest putB, .recv 0 24]).any
      (fun s : Replicated Unit => decide (s.link 0 = [] ∧
        tableValue (s.table ()) (cstr "a") = none ∧
          tableValue s.primary (cstr "a") = some (cstr "1"))) = true by decide +kernel)
    exact ⟨s, hrun, of_decide_eq_true hs⟩

end FusionFS
