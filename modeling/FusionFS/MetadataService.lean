import FusionFS.Lib.MapProgram
import FusionFS.RoundTrip
import FusionFS.Zht

/-!
# The metadata service

What the nodes make of the servers: a store with lookups, inserts and removals. It keeps a map as long
as every request fits into the buffer of the server and every value that is looked up, with its
status, into the buffer of the client.
-/

namespace FusionFS

open Protobuf Package MapProgram

/-! ### The way to the servers -/

/-- One `recv` returns what has been sent, as far as it fits. -/
def Segmentation.Unsplit {size : Nat} (seg : Segmentation size) : Prop :=
  ∀ m, m ≠ [] → (seg.chunks m).head? = some (m.take size)

theorem Segmentation.Unsplit.chunks_eq {size : Nat} {seg : Segmentation size} (h : seg.Unsplit)
    {m : Bytes} (hm : m ≠ []) (hlen : m.length ≤ size) : seg.chunks m = [m] := by
  obtain ⟨rest, hchunks⟩ := List.head?_eq_some_iff.mp (h m hm)
  rw [List.take_of_length_le hlen] at hchunks
  have hflat := seg.flatten_chunks m
  rw [hchunks, List.flatten_cons] at hflat
  have hrest : rest.flatten = [] := List.append_right_eq_self.mp hflat
  cases rest with
  | nil => exact hchunks
  | cons chunk rest =>
      rw [List.flatten_cons, List.append_eq_nil_iff] at hrest
      refine absurd hrest.1 (seg.ne_nil m chunk ?_)
      rw [hchunks]
      exact List.mem_cons_of_mem _ List.mem_cons_self

theorem unsplit_firstUpTo {size : Nat} (hpos : 0 < size) :
    (firstUpTo size hpos le_rfl).Unsplit := by
  intro m hm
  have hchunks : (firstUpTo size hpos le_rfl).chunks m = m.take size :: (m.drop size).map fun b => [b] :=
    if_neg hm
  rw [hchunks, List.head?_cons]

/-- The network between the nodes and the servers where no call disturbs another one: no message is
split, the zero behind a status has a byte for itself, and all calls on a key reach the same server. -/
structure ServerNet where
  frame : Frame
  toServer : Segmentation maxMsgSize
  toStatus : Segmentation 4
  toReply : Segmentation maxMsgSize
  leads : Bytes → HostEntity
  /-- What the buffers for a status hold before. -/
  junk : Bytes
  spare : frame.Spare
  unsplit_toServer : toServer.Unsplit
  unsplit_toStatus : toStatus.Unsplit
  unsplit_toReply : toReply.Unsplit

/-- Messages that arrive as they are sent, to the members that the hash selects. -/
def plainNet (members : List HostEntity) : ServerNet where
  frame := .padded
  toServer := firstUpTo maxMsgSize maxMsgSize_pos le_rfl
  toStatus := firstUpTo 4 (Nat.succ_pos 3) le_rfl
  toReply := firstUpTo maxMsgSize maxMsgSize_pos le_rfl
  leads key := (members[myhash key members.length]?).getD ⟨[], 0⟩
  junk := []
  spare := Frame.spare_padded
  unsplit_toServer := unsplit_firstUpTo maxMsgSize_pos
  unsplit_toStatus := unsplit_firstUpTo (Nat.succ_pos 3)
  unsplit_toReply := unsplit_firstUpTo maxMsgSize_pos

/-- A client that has reached no other server on a host goes where the hash leads. -/
theorem Client.Knows.reached_plainNet {members : List HostEntity} {s : Client} {hist : List HostEntity}
    {p : Package} {dest : HostEntity} {made : Int} (h : s.Knows hist) (hp : p.Clean)
    (hdest : str2Host members p.serialize = some dest)
    (hsteady : dest.host ∈ cachedHosts hist → hist.find? (·.host = dest.host) = some dest)
    (hmade : 0 < made) (hnew : s.connected made = none) :
    s.reached members p.serialize made = some ((plainNet members).leads p.virtualpath) := by
  rw [h.reached_eq hdest hsteady hmade hnew, plainNet]
  have hparse := hp.parse_serialize (.inl rfl)
  rw [List.append_nil] at hparse
  have hkey : cString p.virtualpath = p.virtualpath := by
    rw [cString_eq_self, virtualpath]
    intro hzero
    cases hpath : p.virtualPath with
    | none => simp [hpath] at hzero
    | some key => exact (hp.virtualPath key hpath).2.1 (by simpa [hpath] using hzero)
  rw [str2Host, hparse, hkey] at hdest
  simp only [hdest, Option.getD_some]

namespace ServerNet

variable {σ : Type} (net : ServerNet) (serve : Server σ)

def statusSocket (key : Bytes) : Socket 4 := ⟨some (net.leads key), [], net.toServer, net.toStatus⟩

def replySocket (key : Bytes) : Socket maxMsgSize :=
  ⟨some (net.leads key), [], net.toServer, net.toReply⟩

/-- `zht_lookup`, `zht_insert` and `zht_remove`. The callers look at no status but that of a lookup. -/
def service : Service (HostEntity → σ) Bytes Bytes where
  lookup servers key := (cZhtLookup2 serve (net.replySocket key) key servers).map fun o =>
    (o.servers, if o.result.1 = -2 then none else some o.result.2)
  insert servers key val :=
    (cZhtInsert2 serve (net.statusSocket key) net.junk key val servers).map Outcome.servers
  remove servers key :=
    (cZhtRemove2 serve (net.statusSocket key) net.junk key servers).map Outcome.servers

/-- The service over servers whose hash maps are maps. -/
def storeService : Service (HostEntity → Store) Bytes Bytes := net.service (storeServer net.frame)

end ServerNet

/-- What is sent for a request. -/
def requestPackage : Request Bytes Bytes → Package
  | .lookup key => lookupPackage key
  | .insert key val => insertPackage key val
  | .remove key => removePackage key

/-- The server that a request reaches goes on. -/
def ServerNet.Answered {σ : Type} (net : ServerNet) (serve : Server σ) (servers : HostEntity → σ)
    (r : Request Bytes Bytes) : Prop :=
  let p := requestPackage r
  (serve net.toServer (servers (net.leads p.virtualpath)) (cString p.serialize)).isSome

theorem ServerNet.Answered.socket {σ : Type} {net : ServerNet} {serve : Server σ}
    {servers : HostEntity → σ} {r : Request Bytes Bytes} (h : net.Answered serve servers r) {size : Nat}
    {socket : Socket size} (hdest : socket.dest = some (net.leads (requestPackage r).virtualpath))
    (hserver : socket.toServer = net.toServer) :
    socket.Answered serve (requestPackage r).serialize servers := by
  intro dest hleads
  obtain rfl := Option.some.inj (hdest.symm.trans hleads)
  rw [hserver]
  exact h

/-- Servers that answer alike make services that do, as long as they go on. -/
theorem AnswersAlike.service {σ τ : Type} {serve : Server σ} {serve' : Server τ} {R : σ → τ → Prop}
    (h : AnswersAlike serve serve' R) (net : ServerNet) :
    Follows (net.service serve) (net.service serve') (net.Answered serve') fun servers servers' =>
      ∀ dest, R (servers dest) (servers' dest) where
  lookup servers servers' key r hR hgoes hr := by
    obtain ⟨o, ho, rfl⟩ := Option.map_eq_some_iff.mp hr
    obtain ⟨o', ho', hfollows⟩ := h.lookup hR (hgoes.socket rfl rfl) ho
    refine ⟨o'.servers, ?_, hfollows.servers⟩
    simp only [ServerNet.service, ho', Option.map_some, hfollows.result]
  insert servers servers' key val r hR hgoes hr := by
    obtain ⟨o, ho, rfl⟩ := Option.map_eq_some_iff.mp hr
    obtain ⟨o', ho', hfollows⟩ := h.insert hR (hgoes.socket rfl rfl) ho
    exact ⟨o'.servers, by simp only [ServerNet.service, ho', Option.map_some], hfollows.servers⟩
  remove servers servers' key r hR hgoes hr := by
    obtain ⟨o, ho, rfl⟩ := Option.map_eq_some_iff.mp hr
    obtain ⟨o', ho', hfollows⟩ := h.remove hR (hgoes.socket rfl rfl) ho
    exact ⟨o'.servers, by simp only [ServerNet.service, ho', Option.map_some], hfollows.servers⟩

/-! ### The map behind it -/

/-- The store gives a value back if its package, two status bytes and a zero fit into a message. -/
def FitsMessage (key val : Bytes) : Prop :=
  (insertPackage key val).serialize.length + 2 < maxMsgSize

instance (key val : Bytes) : Decidable (FitsMessage key val) := inferInstanceAs (Decidable (_ < _))

/-- A request whose strings are strings of C, with a key. -/
def CleanRequest : Request Bytes Bytes → Prop
  | .lookup key => key ≠ [] ∧ 0 ∉ key
  | .insert key val => key ≠ [] ∧ 0 ∉ key ∧ 0 ∉ val
  | .remove key => key ≠ [] ∧ 0 ∉ key

instance : DecidablePred CleanRequest
  | .lookup _ => inferInstanceAs (Decidable (_ ∧ _))
  | .insert _ _ => inferInstanceAs (Decidable (_ ∧ _))
  | .remove _ => inferInstanceAs (Decidable (_ ∧ _))

/-- A request that the buffer of the server has room for. -/
def Received (r : Request Bytes Bytes) : Prop := (requestPackage r).serialize.length ≤ maxMsgSize

instance : DecidablePred Received := fun _ => inferInstanceAs (Decidable (_ ≤ _))

/-- And the buffer of the client for its reply. -/
def Fitting (z : Zht) : Request Bytes Bytes → Prop
  | .lookup key => Received (.lookup key) ∧ ∀ val ∈ z key, FitsMessage key val
  | .insert key val => Received (.insert key val)
  | .remove key => Received (.remove key)

instance (z : Zht) : DecidablePred (Fitting z)
  | .lookup _ => inferInstanceAs (Decidable (_ ∧ _))
  | .insert key val => inferInstanceAs (Decidable (Received (.insert key val)))
  | .remove key => inferInstanceAs (Decidable (Received (.remove key)))

theorem Fitting.received {z : Zht} {r : Request Bytes Bytes} (h : Fitting z r) : Received r := by
  cases r with
  | lookup key => exact h.1
  | insert key val => exact h
  | remove key => exact h

/-- Every key is at the server that the calls on it reach, with the package that was inserted. -/
structure HoldsMap (net : ServerNet) (z : Zht) (servers : HostEntity → Store) : Prop where
  kept : ∀ key,
    servers (net.leads key) key = (z key).map fun val => (insertPackage key val).serialize
  clean : ∀ key val, z key = some val → CleanEntry key val

/-- What the servers hold, as a map. -/
def held (net : ServerNet) (servers : HostEntity → Store) : Zht := fun key =>
  (servers (net.leads key) key).map fun stored => (Package.parse stored).realfullpath

theorem HoldsMap.held_eq {net : ServerNet} {z : Zht} {servers : HostEntity → Store}
    (h : HoldsMap net z servers) : held net servers = z := by
  funext key
  rw [held, h.kept]
  cases hz : z key with
  | none => rfl
  | some val =>
      have hparse := (h.clean key val hz).insertPackage.parse_serialize (.inl rfl)
      rw [List.append_nil] at hparse
      rw [Option.map_some, Option.map_some, hparse, realfullpath_insertPackage]

theorem HoldsMap.empty (net : ServerNet) : HoldsMap net (fun _ => none) fun _ _ => none :=
  ⟨fun _ => rfl, fun _ _ h => absurd h.symm (Option.some_ne_none _)⟩

theorem cleanValue_of_length {key : Bytes} {p : Package} (hkey : key ≠ []) (hkey0 : 0 ∉ key)
    (hmem : (1, Value.bytes key) ∈ p.fields) (hlen : p.serialize.length ≤ maxMsgSize) :
    CleanValue (.bytes key) := by
  have hle : key.length ≤ p.serialize.length := length_le_of_mem hmem
  have hword : maxMsgSize < word := by decide
  exact ⟨hkey, hkey0, by omega⟩

theorem serialize_ne_nil (p : Package) (h : p.virtualPath.isSome) : p.serialize ≠ [] := by
  obtain ⟨key, hpath⟩ := Option.isSome_iff_exists.mp h
  intro hnil
  have hhead := head?_serialize hpath
  rw [hnil] at hhead
  cases hhead

section

variable {net : ServerNet} {z : Zht} {servers : HostEntity → Store} {key val : Bytes}

theorem key_mem_lookupPackage (key : Bytes) : (1, Value.bytes key) ∈ (lookupPackage key).fields := by
  simp [fields, lookupPackage]

theorem key_mem_removePackage (key : Bytes) : (1, Value.bytes key) ∈ (removePackage key).fields := by
  simp [fields, removePackage]

theorem int32Bytes_ne_nil (n : Int) : int32Bytes n ≠ [] := by
  apply List.ne_nil_of_length_pos
  rw [length_int32Bytes]
  decide

/-- A lookup of a stored key gives its value, if it fits. -/
theorem HoldsMap.lookup_some (h : HoldsMap net z servers) (hz : z key = some val)
    (hlen : (lookupPackage key).serialize.length ≤ maxMsgSize) :
    net.storeService.lookup servers key =
      if FitsMessage key val then some (servers, some val) else none := by
  have hentry := h.clean key val hz
  have hst : servers (net.leads key) key = some (insertPackage key val).serialize := by
    rw [h.kept, hz, Option.map_some]
  have hreply : recv net.toReply [cstr "00" ++ (insertPackage key val).serialize] =
      some ((cstr "00" ++ (insertPackage key val).serialize).take maxMsgSize) := by
    rw [recv, List.flatten_singleton]
    exact net.unsplit_toReply _ (List.append_ne_nil_of_left_ne_nil (by decide) _)
  have hrequest := net.unsplit_toServer.chunks_eq (serialize_ne_nil (lookupPackage key) rfl) hlen
  have hcall := cZhtLookup2_eq (net.replySocket key) rfl rfl net.spare hentry.key hst
    hentry.insertPackage rfl hrequest hreply
  calc net.storeService.lookup servers key
      = (cZhtLookup2 (storeServer net.frame) (net.replySocket key) key servers).map fun o =>
          (o.servers, if o.result.1 = -2 then none else some o.result.2) := rfl
    _ = if FitsMessage key val then some (servers, some val) else none := by
        rw [hcall, realfullpath_insertPackage, apply_ite (Option.map _)]
        rfl

theorem HoldsMap.lookup_none (h : HoldsMap net z servers) (hkey : CleanValue (.bytes key))
    (hz : z key = none) (hlen : (lookupPackage key).serialize.length ≤ maxMsgSize) :
    net.storeService.lookup servers key = some (servers, none) := by
  have hst : servers (net.leads key) key = none := by rw [h.kept, hz, Option.map_none]
  have hlookup := clean_lookupPackage hkey
  have hrequest := net.unsplit_toServer.chunks_eq (serialize_ne_nil (lookupPackage key) rfl) hlen
  have hsent : (cString (lookupPackage key).serialize).length = (lookupPackage key).serialize.length :=
    by rw [cString_eq_self.mpr hlookup.zero_notMem_serialize]
  have hreceived : (net.replySocket key).received [cstr "-2Empty"] = some (cstr "-2Empty") :=
    net.unsplit_toReply (cstr "-2Empty") (by decide)
  have hstring : receivedString (cstr "-2Empty") = some (cstr "-2Empty") := by decide
  have hstatus : atoi ((cstr "-2Empty").take 2) = -2 := by decide
  have hexchange : exchange (storeServer net.frame) (net.replySocket key)
      (lookupPackage key).serialize servers = some (servers, [cstr "-2Empty"]) := by
    rw [exchange_of_whole rfl hlookup hrequest, dataService_lookup_missing net.spare hkey hst]
    simp only [Function.update_eq_self, Option.toList_some]
  have hcall : cZhtLookup2 (storeServer net.frame) (net.replySocket key) key servers =
      some ⟨servers, [cstr "-2Empty"], -2, (parse ((cstr "-2Empty").drop 2)).realfullpath⟩ := by
    have hconnected : (net.replySocket key).dest ≠ none := (Option.some_ne_none _)
    have hlong : ¬(cstr "-2Empty").length < 2 := by decide
    rw [cZhtLookup2, if_neg hkey.1]
    simp only [hexchange, hsent, hconnected, hreceived, hstring, hstatus, Option.bind_eq_bind,
      Option.bind_some, ne_eq, not_true_eq_false, or_self, if_false, if_neg hlong]
  calc net.storeService.lookup servers key
      = (cZhtLookup2 (storeServer net.frame) (net.replySocket key) key servers).map fun o =>
          (o.servers, if o.result.1 = -2 then none else some o.result.2) := rfl
    _ = some (servers, none) := by
        rw [hcall]
        rfl

/-- An insert that fits is done. -/
theorem HoldsMap.insert (h : HoldsMap net z servers) (hentry : CleanEntry key val)
    (hlen : (insertPackage key val).serialize.length ≤ maxMsgSize) :
    ∃ servers', net.storeService.insert servers key val = some servers' ∧
      HoldsMap net (zhtInsert z key val) servers' := by
  have hrequest := net.unsplit_toServer.chunks_eq (serialize_ne_nil (insertPackage key val) rfl) hlen
  have hreply : net.toStatus.chunks (int32Bytes 0) = [int32Bytes 0] :=
    net.unsplit_toStatus.chunks_eq (int32Bytes_ne_nil 0) (length_int32Bytes 0).le
  have hcall : cZhtInsert2 (storeServer net.frame) (net.statusSocket key) net.junk key val servers =
      some ⟨stored (net.leads key) key val servers, [int32Bytes 0], 0⟩ :=
    cZhtInsert2_eq _ rfl rfl net.junk hentry hrequest hreply
  refine ⟨stored (net.leads key) key val servers, ?_, fun k => ?_, fun k v hv => ?_⟩
  · calc net.storeService.insert servers key val
        = (cZhtInsert2 (storeServer net.frame) (net.statusSocket key) net.junk key val servers).map
            Outcome.servers := rfl
      _ = some (stored (net.leads key) key val servers) := by
          rw [hcall]
          rfl
  · by_cases hk : k = key
    · rw [hk, stored, Function.update_self, Function.update_self, zhtInsert_self, Option.map_some]
    · rw [zhtInsert_of_ne hk, ← h.kept k, stored]
      by_cases hserver : net.leads k = net.leads key
      · rw [hserver, Function.update_self, Function.update_of_ne hk]
      · rw [Function.update_of_ne hserver]
  · by_cases hk : k = key
    · rw [hk, zhtInsert_self] at hv
      rw [hk, ← Option.some.inj hv]
      exact hentry
    · rw [zhtInsert_of_ne hk] at hv
      exact h.clean k v hv

theorem HoldsMap.remove (h : HoldsMap net z servers) (hkey : CleanValue (.bytes key))
    (hlen : (removePackage key).serialize.length ≤ maxMsgSize) :
    ∃ servers', net.storeService.remove servers key = some servers' ∧
      HoldsMap net (zhtRemove z key) servers' := by
  have hrequest := net.unsplit_toServer.chunks_eq (serialize_ne_nil (removePackage key) rfl) hlen
  have hexchange : exchange (storeServer net.frame) (net.statusSocket key)
      (removePackage key).serialize servers =
        some (Function.update servers (net.leads key)
          (Function.update (servers (net.leads key)) key none),
          [int32Bytes (if (servers (net.leads key) key).isSome then 0 else -2)]) := by
    rw [exchange_of_whole rfl (clean_removePackage hkey) hrequest,
      dataService_removePackage (servers (net.leads key)) hkey]
    rfl
  have hreceived : ∀ n, (net.statusSocket key).received [int32Bytes n] = some (int32Bytes n) := by
    intro n
    have hchunks := net.unsplit_toStatus.chunks_eq (int32Bytes_ne_nil n) (length_int32Bytes n).le
    calc (net.statusSocket key).received [int32Bytes n]
        = (net.toStatus.chunks (int32Bytes n ++ [])).head? := rfl
      _ = some (int32Bytes n) := by rw [List.append_nil, hchunks, List.head?_cons]
  refine ⟨Function.update servers (net.leads key)
    (Function.update (servers (net.leads key)) key none), ?_, fun k => ?_, fun k v hv => ?_⟩
  · calc net.storeService.remove servers key
        = (cZhtRemove2 (storeServer net.frame) (net.statusSocket key) net.junk key servers).map
            Outcome.servers := rfl
      _ = some (Function.update servers (net.leads key)
            (Function.update (servers (net.leads key)) key none)) := by
          rw [cZhtRemove2, if_neg hkey.1, statusCall, hexchange]
          simp only [Option.bind_eq_bind, Option.bind_some, hreceived, Option.map_some]
  · by_cases hk : k = key
    · rw [hk, Function.update_self, Function.update_self, zhtRemove_self, Option.map_none]
    · rw [zhtRemove_of_ne hk, ← h.kept k]
      by_cases hserver : net.leads k = net.leads key
      · rw [hserver, Function.update_self, Function.update_of_ne hk]
      · rw [Function.update_of_ne hserver]
  · by_cases hk : k = key
    · rw [hk, zhtRemove_self] at hv
      cases hv
    · rw [zhtRemove_of_ne hk] at hv
      exact h.clean k v hv

variable (net) in
/-- The service keeps the map for the requests that fit. -/
theorem storeService_keeps :
    Keeps net.storeService (fun z r => CleanRequest r ∧ Fitting z r) (fun _ _ => True)
      (HoldsMap net) where
  lookup z servers key h hr _ := by
    obtain ⟨⟨hkey, hkey0⟩, hlen, hfits⟩ := hr
    cases hz : z key with
    | none =>
        have hclean := cleanValue_of_length hkey hkey0 (key_mem_lookupPackage key) hlen
        exact ⟨servers, h.lookup_none hclean hz hlen, h⟩
    | some val => exact ⟨servers, by rw [h.lookup_some hz hlen, if_pos (hfits val hz)], h⟩
  insert z servers key val h hr _ := by
    obtain ⟨⟨hkey, hkey0, hval0⟩, hlen⟩ := hr
    exact h.insert (cleanEntry_of_length hkey hkey0 hval0 hlen) hlen
  remove z servers key h hr _ := by
    obtain ⟨⟨hkey, hkey0⟩, hlen⟩ := hr
    exact h.remove (cleanValue_of_length hkey hkey0 (key_mem_removePackage key) hlen) hlen

variable (net) in
/-- Of the requests that the servers have room for it takes no others. -/
theorem storeService_refuses :
    Refuses net.storeService (fun _ r => CleanRequest r ∧ Received r) Fitting (HoldsMap net) where
  lookup z servers key h hr hsome := by
    refine ⟨hr.2, fun val hz => ?_⟩
    rw [h.lookup_some hz hr.2] at hsome
    by_contra hover
    rw [if_neg hover] at hsome
    cases hsome
  insert z servers key val h hr hsome := hr.2
  remove z servers key h hr hsome := hr.2

/-- A program whose requests fit goes on the service as on the map. -/
theorem HoldsMap.eval {α : Type} {p : Prog Bytes Bytes α} {z' : Zht} {a : α} (h : HoldsMap net z servers)
    (hwithin : p.Within (fun z r => CleanRequest r ∧ Fitting z r) z) (hmap : map.eval p z = some (z', a)) :
    ∃ servers', net.storeService.eval p servers = some (servers', a) ∧ HoldsMap net z' servers' :=
  (storeService_keeps net).eval h hwithin (Service.along_of_forall (fun _ _ => trivial) p servers) hmap

/-- And one that goes on there fits. -/
theorem HoldsMap.within {α : Type} {p : Prog Bytes Bytes α} (h : HoldsMap net z servers)
    (hreceived : p.Within (fun _ r => CleanRequest r ∧ Received r) z)
    (hsome : (net.storeService.eval p servers).isSome) :
    p.Within Fitting z ∧ (map.eval p z).isSome :=
  (storeService_refuses net).within (storeService_keeps net) (fun _ _ hr hG => ⟨hr.1, hG⟩)
    (fun _ _ => trivial) h hreceived hsome

end

end FusionFS
