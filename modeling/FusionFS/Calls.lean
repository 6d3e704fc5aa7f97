import FusionFS.Routing

/-!
# The calls of a metadata client

A call goes over the socket that the client has for the host of its server. What earlier calls have
left unread on it comes before the reply. The calls are the same for every kind of server behind the
sockets, and two servers that answer alike look alike through them.
-/

namespace FusionFS

/-! ### Sockets -/

/-- The socket of one call: the server it is connected to, the bytes of earlier replies on it, and how
TCP hands over what goes through it. -/
structure Socket (size : Nat) where
  dest : Option HostEntity
  unread : Bytes
  toServer : Segmentation maxMsgSize
  toClient : Segmentation size

/-- The server that the request `str` of a client goes to. `made` is what `makeClientSocket` returns,
if it is called. -/
def Client.reached (members : List HostEntity) (s : Client) (str : Bytes) (made : Int) :
    Option HostEntity :=
  (str2SockLRU members s str made).bind fun r => if 0 < r.2 then r.1.connected r.2 else none

/-- That socket, with what is on it. -/
def Client.socket (members : List HostEntity) (s : Client) (str : Bytes) (made : Int) {size : Nat}
    (unread : Bytes) (toServer : Segmentation maxMsgSize) (toClient : Segmentation size) :
    Socket size :=
  ⟨s.reached members str made, unread, toServer, toClient⟩

/-- What a client call does: the servers afterwards, the replies to its request, and what it
returns. -/
structure Outcome (σ α : Type) where
  servers : HostEntity → σ
  replies : List Bytes
  result : α

/-! ### Calls -/

/-- The read loop of a server on the bytes of one request: what it becomes, and its replies. -/
abbrev Server (σ : Type) := Segmentation maxMsgSize → σ → Bytes → Option (σ × List Bytes)

section Calls

variable {σ : Type} (serve : Server σ) {size : Nat}

/-- `generalSendTo`, with what the server does. Without a connection nothing is sent. -/
def exchange (socket : Socket size) (str : Bytes) (servers : HostEntity → σ) :
    Option ((HostEntity → σ) × List Bytes) :=
  match socket.dest with
  | none => some (servers, [])
  | some dest => (serve socket.toServer (servers dest) (cString str)).map fun res =>
      (Function.update servers dest res.1, res.2)

/-- `generalReceive` for the reply. Without a connection it fails at once. -/
def Socket.received (socket : Socket size) (replies : List Bytes) : Option Bytes :=
  if socket.dest.isSome then recv socket.toClient (socket.unread :: replies) else some []

/-- `ZHTClient::insert` and `ZHTClient::remove`: `junk` is what the buffer for the status holds
before. -/
def statusCall (socket : Socket 4) (junk str : Bytes) (servers : HostEntity → σ) :
    Option (Outcome σ Int) := do
  let res ← exchange serve socket str servers
  let received ← socket.received res.2
  some ⟨res.1, res.2, readInt32 ((received ++ junk).take 4)⟩

def cZhtInsert2 (socket : Socket 4) (junk key value : Bytes) (servers : HostEntity → σ) :
    Option (Outcome σ Int) :=
  if key = [] then some ⟨servers, [], -1⟩
  else statusCall serve socket junk (insertPackage key value).serialize servers

def cZhtRemove2 (socket : Socket 4) (junk key : Bytes) (servers : HostEntity → σ) :
    Option (Outcome σ Int) :=
  if key = [] then some ⟨servers, [], -1⟩
  else statusCall serve socket junk (removePackage key).serialize servers

/-- `c_zht_lookup2`: the status and the value. A request that is not sent whole is not answered, and
`substr(2)` throws on a shorter string. -/
def cZhtLookup2 (socket : Socket maxMsgSize) (key : Bytes) (servers : HostEntity → σ) :
    Option (Outcome σ (Int × Bytes)) :=
  if key = [] then some ⟨servers, [], -1, []⟩
  else do
    let str := (lookupPackage key).serialize
    let res ← exchange serve socket str servers
    if socket.dest = none ∨ (cString str).length ≠ str.length then some ⟨res.1, res.2, -1, []⟩
    else do
      let received ← socket.received res.2
      let sRecv ← receivedString received
      if sRecv.length < 2 then none
      else some ⟨res.1, res.2, atoi (sRecv.take 2), (Package.parse (sRecv.drop 2)).realfullpath⟩

end Calls

/-- A server whose hash map is a map. -/
def storeServer (frame : Frame) : Server Store := fun toServer st request =>
  some (serve frame toServer st request)

/-! ### Servers that answer alike -/

section Simulation

variable {σ τ α : Type} {serve : Server σ} {serve' : Server τ} {R : σ → τ → Prop} {size : Nat}
  {servers : HostEntity → σ} {servers' : HostEntity → τ}

/-- A server follows another one: whatever it is sent, it sends the same replies if it goes on. -/
def AnswersAlike (serve : Server σ) (serve' : Server τ) (R : σ → τ → Prop) : Prop :=
  ∀ toServer s t request res, R s t → (serve' toServer t request).isSome →
    serve toServer s request = some res → ∃ t', serve' toServer t request = some (t', res.2) ∧ R res.1 t'

/-- The server behind a socket goes on when it is sent `str`. -/
def Socket.Answered (socket : Socket size) (serve : Server σ) (str : Bytes)
    (servers : HostEntity → σ) : Prop :=
  ∀ dest, socket.dest = some dest → (serve socket.toServer (servers dest) (cString str)).isSome

/-- The same outcome, on servers that follow those of the other one. -/
structure Outcome.Follows (R : σ → τ → Prop) (o : Outcome σ α) (o' : Outcome τ α) : Prop where
  servers : ∀ dest, R (o.servers dest) (o'.servers dest)
  replies : o'.replies = o.replies
  result : o'.result = o.result

variable (hserve : AnswersAlike serve serve' R) (hR : ∀ dest, R (servers dest) (servers' dest))
include hserve hR

theorem AnswersAlike.exchange {socket : Socket size} {str : Bytes}
    {res : (HostEntity → σ) × List Bytes} (hgoes : socket.Answered serve' str servers')
    (h : FusionFS.exchange serve socket str servers = some res) :
    ∃ r, FusionFS.exchange serve' socket str servers' = some (r, res.2) ∧
      ∀ dest, R (res.1 dest) (r dest) := by
  unfold FusionFS.exchange at h ⊢
  cases hdest : socket.dest with
  | none =>
      rw [hdest] at h
      cases h
      exact ⟨servers', rfl, hR⟩
  | some dest =>
      rw [hdest] at h
      obtain ⟨res', hres, rfl⟩ := Option.map_eq_some_iff.mp h
      obtain ⟨t', ht', hR'⟩ := hserve _ _ _ _ _ (hR dest) (hgoes dest hdest) hres
      refine ⟨Function.update servers' dest t', by simp only [ht', Option.map_some], fun d => ?_⟩
      by_cases hd : d = dest
      · subst hd
        simpa only [Function.update_self] using hR'
      · simpa only [Function.update_of_ne hd] using hR d

theorem AnswersAlike.statusCall {socket : Socket 4} {junk str : Bytes} {o : Outcome σ Int}
    (hgoes : socket.Answered serve' str servers')
    (h : FusionFS.statusCall serve socket junk str servers = some o) :
    ∃ o', FusionFS.statusCall serve' socket junk str servers' = some o' ∧ o.Follows R o' := by
  obtain ⟨res, hres, h⟩ := Option.bind_eq_some_iff.mp h
  obtain ⟨received, hreceived, h⟩ := Option.bind_eq_some_iff.mp h
  cases h
  obtain ⟨r, hr, hR'⟩ := hserve.exchange hR hgoes hres
  refine ⟨⟨r, res.2, readInt32 ((received ++ junk).take 4)⟩, ?_, hR', rfl, rfl⟩
  rw [FusionFS.statusCall, hr]
  simp only [Option.bind_eq_bind, Option.bind_some, hreceived]

theorem AnswersAlike.insert {socket : Socket 4} {junk key value : Bytes} {o : Outcome σ Int}
    (hgoes : socket.Answered serve' (insertPackage key value).serialize servers')
    (h : cZhtInsert2 serve socket junk key value servers = some o) :
    ∃ o', cZhtInsert2 serve' socket junk key value servers' = some o' ∧ o.Follows R o' := by
  unfold cZhtInsert2 at h ⊢
  split_ifs at h ⊢
  · cases h
    exact ⟨_, rfl, hR, rfl, rfl⟩
  · exact hserve.statusCall hR hgoes h

theorem AnswersAlike.remove {socket : Socket 4} {junk key : Bytes} {o : Outcome σ Int}
    (hgoes : socket.Answered serve' (removePackage key).serialize servers')
    (h : cZhtRemove2 serve socket junk key servers = some o) :
    ∃ o', cZhtRemove2 serve' socket junk key servers' = some o' ∧ o.Follows R o' := by
  unfold cZhtRemove2 at h ⊢
  split_ifs at h ⊢
  · cases h
    exact ⟨_, rfl, hR, rfl, rfl⟩
  · exact hserve.statusCall hR hgoes h

theorem AnswersAlike.lookup {socket : Socket maxMsgSize} {key : Bytes} {o : Outcome σ (Int × Bytes)}
    (hgoes : socket.Answered serve' (lookupPackage key).serialize servers')
    (h : cZhtLookup2 serve socket key servers = some o) :
    ∃ o', cZhtLookup2 serve' socket key servers' = some o' ∧ o.Follows R o' := by
  unfold cZhtLookup2 at h ⊢
  split
  · next hkey =>
    rw [if_pos hkey] at h
    cases h
    exact ⟨_, rfl, hR, rfl, rfl⟩
  · next hkey =>
    rw [if_neg hkey] at h
    obtain ⟨res, hres, h⟩ := Option.bind_eq_some_iff.mp h
    obtain ⟨r, hr, hR'⟩ := hserve.exchange hR hgoes hres
    simp only [hr, Option.bind_eq_bind, Option.bind_some]
    split
    · next hsent =>
      rw [if_pos hsent] at h
      cases h
      exact ⟨_, rfl, hR', rfl, rfl⟩
    · next hsent =>
      rw [if_neg hsent] at h
      obtain ⟨received, hreceived, h⟩ := Option.bind_eq_some_iff.mp h
      obtain ⟨sRecv, hstring, h⟩ := Option.bind_eq_some_iff.mp h
      split at h
      · cases h
      · next hlong =>
        cases h
        simp only [hreceived, hstring, Option.bind_some, if_neg hlong]
        exact ⟨_, rfl, hR', rfl, rfl⟩

end Simulation

/-! ### The right server -/

namespace Client

variable {members : List HostEntity} {s : Client} {hist : List HostEntity} {dest : HostEntity}
  {str : Bytes} {made : Int}

/-- A request goes to the server of its key if the client has reached no other one on its host. -/
theorem Knows.reached_eq (h : Knows s hist) (hdest : str2Host members str = some dest)
    (hsteady : dest.host ∈ cachedHosts hist → hist.find? (·.host = dest.host) = some dest)
    (hmade : 0 < made) (hnew : s.connected made = none) :
    s.reached members str made = some dest := by
  by_cases hin : dest.host ∈ cachedHosts hist
  · obtain ⟨s', sock, hsock, hpos, hleads, -⟩ := h.hit made hdest hin
    rw [reached, hsock, Option.bind_some, if_pos hpos, hleads, hsteady hin]
  · obtain ⟨s', sock, hsock, hleads, -⟩ := h.miss hdest hin hnew
    have hpos : 0 < sock := by
      rw [str2SockLRU, hdest] at hsock
      rw [← h.keys] at hin
      simp only [Option.map_some, LRUCache.fetch_of_notMem hin true, le_refl, if_true,
        if_neg (Int.not_le.mpr hmade), Option.some.injEq, Prod.mk.injEq] at hsock
      rw [← hsock.2]
      exact hmade
    rw [reached, hsock, Option.bind_some, if_pos hpos, hleads hpos]

end Client

end FusionFS
