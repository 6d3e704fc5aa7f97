import FusionFS.MetadataService
import FusionFS.NoVoHTRefinement

/-!
# The metadata service over tables

A server keeps its map in a hash table of linked pairs. Whatever bytes it is sent, it answers as the
map would, so the service over tables keeps what the service over maps does.
-/

namespace FusionFS

open MapProgram

namespace NoVoHT

variable {t : NoVoHT} {st : Store} {full : Int → Nat → Bool}

/-- `dataService`, on the table. `full` is the test that makes `put` grow it. -/
def dataService (full : Int → Nat → Bool) (frame : Frame) (t : NoVoHT) (received : Bytes) :
    Option (NoVoHT × Option Bytes) :=
  let buff := received ++ List.replicate (maxMsgSize - received.length) 0
  let package := Package.parse buff
  let noKey := package.virtualpath = []
  match package.op with
  | 1 => (if noKey then some [] else t.hbLookup package).map fun result =>
      let status := if noKey then -1 else if result = cstr "Empty" then -2 else 0
      (t, some (frame.sAllInOne status result))
  | 2 => (if noKey then some (t, -1) else t.hbRemove package).map fun res =>
      (res.1, some (int32Bytes res.2))
  | 3 => (if noKey then some (t, -1) else t.hbInsert (full t.numEl t.size) package).map fun res =>
      (res.1, some (int32Bytes res.2))
  | _ => some (t, none)

/-- If the table has to grow it can be doubled within the range of an `int`. -/
def HasRoom (full : Int → Nat → Bool) (t : NoVoHT) : Prop :=
  full t.numEl t.size = true → t.size * 2 < 2 ^ 31

instance (full : Int → Nat → Bool) (t : NoVoHT) : Decidable (t.HasRoom full) :=
  inferInstanceAs (Decidable (_ → _))

/-- Whatever the bytes are, the table does what the map does. -/
theorem dataService_models (hm : t.Models st) (hroom : t.HasRoom full) (frame : Frame)
    (received : Bytes) :
    ∃ t', t.dataService full frame received =
        some (t', (FusionFS.dataService frame st received).2) ∧
      t'.Models (FusionFS.dataService frame st received).1 := by
  simp only [dataService, FusionFS.dataService]
  generalize Package.parse (received ++ List.replicate (maxMsgSize - received.length) 0) = package
  generalize package.op = op
  by_cases hkey : package.virtualpath = []
  · simp only [if_pos hkey, Option.map_some]
    obtain _ | _ | _ | _ | op := op <;> exact ⟨t, rfl, hm⟩
  · obtain ⟨removed, hremove, hm₂, hret₂⟩ := hbRemove_models hm package
    obtain ⟨inserted, hinsert, hm₃, hret₃⟩ := hbInsert_models hm hroom package
    simp only [if_neg hkey, hbLookup_models hm hkey, hremove, hinsert, Option.map_some, hret₂, hret₃]
    obtain _ | _ | _ | _ | op := op
    · exact ⟨t, rfl, hm⟩
    · exact ⟨t, rfl, hm⟩
    · exact ⟨removed.1, rfl, hm₂⟩
    · exact ⟨inserted.1, rfl, hm₃⟩
    · exact ⟨t, rfl, hm⟩

/-- Only an insert asks whether the table is full. -/
theorem dataService_of_ne_insert {received : Bytes} (frame : Frame)
    (hop : (Package.parse (received ++ List.replicate (maxMsgSize - received.length) 0)).op ≠ 3) :
    t.dataService full frame received = t.dataService (fun _ _ => false) frame received := by
  simp only [dataService]
  generalize Package.parse (received ++ List.replicate (maxMsgSize - received.length) 0) = package
    at hop ⊢
  generalize package.op = op at hop ⊢
  obtain _ | _ | _ | _ | op := op
  · rfl
  · rfl
  · rfl
  · exact absurd rfl hop
  · rfl

theorem hasRoom_of_false (t : NoVoHT) : t.HasRoom fun _ _ => false :=
  fun hgrow => absurd hgrow Bool.false_ne_true

theorem isSome_dataService (hm : t.Models st) (frame : Frame) {received : Bytes}
    (hroom : (Package.parse (received ++ List.replicate (maxMsgSize - received.length) 0)).op = 3 →
      t.HasRoom full) : (t.dataService full frame received).isSome := by
  by_cases hop : (Package.parse (received ++ List.replicate (maxMsgSize - received.length) 0)).op = 3
  · obtain ⟨t', hrun, -⟩ := dataService_models hm (hroom hop) frame received
    rw [hrun]
    rfl
  · obtain ⟨t', hrun, -⟩ := dataService_models hm t.hasRoom_of_false frame received
    rw [dataService_of_ne_insert frame hop, hrun]
    rfl

/-- Where the table does not throw, it does what the map does, whatever it may grow to. -/
theorem models_of_dataService (hm : t.Models st) {frame : Frame} {received : Bytes}
    {r : NoVoHT × Option Bytes} (hrun : t.dataService full frame received = some r) :
    r.2 = (FusionFS.dataService frame st received).2 ∧
      r.1.Models (FusionFS.dataService frame st received).1 := by
  have hmodels : ∀ full : Int → Nat → Bool, t.dataService full frame received = some r →
      t.HasRoom full → r.2 = (FusionFS.dataService frame st received).2 ∧
        r.1.Models (FusionFS.dataService frame st received).1 := by
    intro full hrun hroom
    obtain ⟨t', ht', hm'⟩ := dataService_models hm hroom frame received
    obtain rfl := Option.some.inj (hrun.symm.trans ht')
    exact ⟨rfl, hm'⟩
  by_cases hop : (Package.parse (received ++ List.replicate (maxMsgSize - received.length) 0)).op = 3
  · by_cases hkey :
      (Package.parse (received ++ List.replicate (maxMsgSize - received.length) 0)).virtualpath = []
    · -- nothing is inserted without a key
      refine hmodels (fun _ _ => false) ?_ t.hasRoom_of_false
      rw [← hrun]
      simp only [dataService, hop, if_pos hkey]
    · refine hmodels full hrun ?_
      simp only [dataService, hop, if_neg hkey] at hrun
      obtain ⟨s, hs, -⟩ := Option.map_eq_some_iff.mp hrun
      obtain ⟨s', hput, -⟩ := Option.map_eq_some_iff.mp hs
      exact (put_size hput).1
  · exact hmodels _ (dataService_of_ne_insert frame hop ▸ hrun) t.hasRoom_of_false

/-- The read loop of a server with its table. -/
def server (full : Int → Nat → Bool) (frame : Frame) : Server NoVoHT := fun toServer t request =>
  (toServer.chunks request).foldlM (fun s chunk =>
    (s.1.dataService full frame chunk).map fun r => (r.1, s.2 ++ r.2.toList)) (t, [])

/-- A server with a map answers as one with a table does. -/
theorem storeServer_answersAlike (full : Int → Nat → Bool) (frame : Frame) :
    AnswersAlike (server full frame) (storeServer frame) fun t st => t.Models st := by
  rintro toServer t st request res hm - hres
  refine ⟨(serve frame toServer st request).1, ?_⟩
  unfold server at hres
  unfold storeServer serve
  revert hres
  generalize toServer.chunks request = chunks
  generalize ([] : List Bytes) = sent
  induction chunks generalizing t st sent with
  | nil =>
      intro hres
      obtain rfl := Option.some.inj hres
      exact ⟨rfl, hm⟩
  | cons chunk chunks ih =>
      intro hres
      rw [List.foldlM_cons, Option.bind_eq_bind, Option.bind_eq_some_iff] at hres
      obtain ⟨mid, hmid, hrest⟩ := hres
      obtain ⟨r, hr, rfl⟩ := Option.map_eq_some_iff.mp hmid
      obtain ⟨hreply, hm'⟩ := models_of_dataService hm hr
      rw [hreply] at hrest
      exact ih r.1 _ hm' _ hrest

/-- And a server with a table, as long as it does not throw, as one with a map. -/
theorem server_answersAlike (full : Int → Nat → Bool) (frame : Frame) :
    AnswersAlike (storeServer frame) (server full frame) fun st t => t.Models st := by
  rintro toServer st t request res hm hgoes hres
  obtain ⟨⟨t', replies⟩, hrun⟩ := Option.isSome_iff_exists.mp hgoes
  obtain ⟨st', hst', hm'⟩ := storeServer_answersAlike full frame toServer t st request _ hm rfl hrun
  obtain rfl := Option.some.inj (hst'.symm.trans hres)
  exact ⟨t', hrun, hm'⟩

/-- One package that the table has room for. -/
theorem isSome_server {toServer : Segmentation maxMsgSize} (hm : t.Models st) (frame : Frame)
    {p : Package} (hp : p.Clean) (hwhole : toServer.chunks p.serialize = [p.serialize])
    (hroom : p.op = 3 → t.HasRoom full) : (server full frame toServer t (cString p.serialize)).isSome := by
  have hrun : (t.dataService full frame p.serialize).isSome :=
    isSome_dataService hm frame fun hop => hroom (by rwa [hp.parse_received] at hop)
  obtain ⟨r, hr⟩ := Option.isSome_iff_exists.mp hrun
  rw [server, cString_eq_self.mpr hp.zero_notMem_serialize, hwhole, List.foldlM_cons, hr]
  rfl

/-- A new table of the server, without a file. -/
theorem models_new {size : Nat} {m : Int} (hsize : 0 < size)
    (hnew : construct full [] [] size m = some t) : t.Models fun _ => none := by
  have htable : construct full [] [] size m = some _ := rfl
  rw [hnew] at htable
  rw [Option.some.inj htable]
  exact models_empty (fun _ => rfl) hsize fun _ => rfl

end NoVoHT

/-- The service over servers with tables. -/
def ServerNet.tableService (net : ServerNet) (full : Int → Nat → Bool) :
    Service (HostEntity → NoVoHT) Bytes Bytes :=
  net.service (NoVoHT.server full net.frame)

/-- The tables of the servers hold the store. -/
def Stores (net : ServerNet) (z : Zht) (tables : HostEntity → NoVoHT) : Prop :=
  ∃ servers, HoldsMap net z servers ∧ ∀ dest, (tables dest).Models (servers dest)

theorem Stores.empty {net : ServerNet} {tables : HostEntity → NoVoHT}
    (hm : ∀ dest, (tables dest).Models fun _ => none) : Stores net (fun _ => none) tables :=
  ⟨fun _ _ => none, HoldsMap.empty net, hm⟩

/-- The table that a request changes has room. -/
def ServerNet.HasRoom (net : ServerNet) (full : Int → Nat → Bool) (tables : HostEntity → NoVoHT) :
    Request Bytes Bytes → Prop
  | .lookup _ => True
  | .insert key _ => (tables (net.leads key)).HasRoom full
  | .remove _ => True

instance (net : ServerNet) (full : Int → Nat → Bool) (tables : HostEntity → NoVoHT) :
    DecidablePred (net.HasRoom full tables)
  | .lookup _ => .isTrue trivial
  | .insert key _ => inferInstanceAs (Decidable ((tables (net.leads key)).HasRoom full))
  | .remove _ => .isTrue trivial

theorem clean_requestPackage {r : Request Bytes Bytes} (hclean : CleanRequest r) (hreceived : Received r) :
    (requestPackage r).Clean := by
  cases r with
  | lookup key =>
      exact clean_lookupPackage
        (cleanValue_of_length hclean.1 hclean.2 (key_mem_lookupPackage key) hreceived)
  | insert key val =>
      exact (cleanEntry_of_length hclean.1 hclean.2.1 hclean.2.2 hreceived).insertPackage
  | remove key =>
      exact clean_removePackage
        (cleanValue_of_length hclean.1 hclean.2 (key_mem_removePackage key) hreceived)

theorem ServerNet.answered_of_hasRoom {net : ServerNet} {full : Int → Nat → Bool}
    {servers : HostEntity → Store} {tables : HostEntity → NoVoHT} {r : Request Bytes Bytes}
    (hm : ∀ dest, (tables dest).Models (servers dest)) (hclean : CleanRequest r) (hreceived : Received r)
    (hroom : net.HasRoom full tables r) : net.Answered (NoVoHT.server full net.frame) tables r := by
  have hkey : (requestPackage r).virtualPath.isSome := by cases r <;> rfl
  refine NoVoHT.isSome_server (hm _) net.frame (clean_requestPackage hclean hreceived)
    (net.unsplit_toServer.chunks_eq (serialize_ne_nil _ hkey) hreceived) fun hop => ?_
  cases r with
  | lookup key => cases hop
  | insert key val => exact hroom
  | remove key => cases hop

/-- Requests that fit find the store behind the tables. -/
theorem tableService_keeps (net : ServerNet) (full : Int → Nat → Bool) :
    Keeps (net.tableService full) (fun z r => CleanRequest r ∧ Fitting z r) (net.HasRoom full)
      (Stores net) :=
  (storeService_keeps net).follows (fun _ _ => trivial)
    ((NoVoHT.server_answersAlike full net.frame).service net)
    fun _ _ _ _ _ hm hr hroom => ServerNet.answered_of_hasRoom hm hr.1 hr.2.received hroom

end FusionFS
