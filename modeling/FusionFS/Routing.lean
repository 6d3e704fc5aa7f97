import FusionFS.Lib.Recency
import FusionFS.Lib.Run
import FusionFS.Wire

/-!
# Which server a request goes to

A client keeps the sockets it has opened in a cache of limited size and closes what falls out of it.
The cache knows them by the host they lead to; the port of the member is not part of the key.
-/

namespace FusionFS

open Transition Recency

/-! ### The cache -/

/-- `LRUCache`, with its elements counted by one. The index is the search in the list. -/
structure LRUCache (κ δ : Type) where
  list : List (κ × δ)
  maxSize : Nat

namespace LRUCache

variable {κ δ : Type} [DecidableEq κ]

/-- `_touch`. -/
def touchKey (c : LRUCache κ δ) (key : κ) : LRUCache κ δ :=
  match c.list.find? (·.1 = key) with
  | some entry => { c with list := entry :: c.list.eraseP (·.1 = key) }
  | none => c

/-- `fetch`. What is not there reads as `Data()`. -/
def fetch [Zero δ] (c : LRUCache κ δ) (key : κ) (touchData : Bool) : δ × LRUCache κ δ :=
  match c.list.find? (·.1 = key) with
  | some entry => (entry.2, if touchData then c.touchKey key else c)
  | none => (0, c)

/-- The loop of `insert` that removes the last element, on the reversed list. -/
def shrink (maxSize : Nat) : List (κ × δ) → δ → List (κ × δ) × δ
  | [], removed => ([], removed)
  | entry :: rest, removed =>
      if maxSize < rest.length + 1 then shrink maxSize rest entry.2 else (entry :: rest, removed)

/-- `insert`, the variant that reports what it removed last. -/
def insert (c : LRUCache κ δ) (key : κ) (data removed : δ) : LRUCache κ δ × δ :=
  let rest := (c.touchKey key).list.eraseP (·.1 = key)
  let res := shrink c.maxSize ((key, data) :: rest).reverse removed
  ({ c with list := res.1.reverse }, res.2)

end LRUCache

/-! ### The client -/

/-- The fields of a member of the list that are looked at. -/
structure HostEntity where
  host : Bytes
  port : Nat
  deriving DecidableEq

def cacheSize : Nat := 1024

/-- The cache, and the open sockets with what they are connected to. -/
structure Client where
  connectionCache : LRUCache Bytes Int
  connected : Int → Option HostEntity

/-- A call, with the string its caller passes. -/
inductive ClientCall where
  | insert (str : Bytes)
  | lookup (str : Bytes)
  | remove (str : Bytes)

/-- The string a call sends. -/
def ClientCall.sent : ClientCall → Bytes
  | .insert str => str
  | .lookup str => { Package.parse str with operation := some 1, replicaNo := some 3 }.serialize
  | .remove str => { Package.parse str with operation := some 2, replicaNo := some 3 }.serialize

/-- `str2Host`. `at` throws when the index is behind the end. -/
def str2Host (members : List HostEntity) (str : Bytes) : Option HostEntity :=
  members[myhash (cString (Package.parse str).virtualpath) members.length]?

namespace LRUCache

variable {κ δ : Type} [DecidableEq κ]

def keys (c : LRUCache κ δ) : List κ := c.list.map Prod.fst

variable {c : LRUCache κ δ} {key : κ} {data removed : δ}

theorem map_eraseP (l : List (κ × δ)) (key : κ) :
    (l.eraseP (·.1 = key)).map Prod.fst = (l.map Prod.fst).erase key := by
  rw [List.erase_eq_eraseP', List.eraseP_map]
  rfl

theorem notMem_eraseP (hnodup : c.keys.Nodup) (key : κ) :
    key ∉ (c.list.eraseP (·.1 = key)).map Prod.fst := by
  rw [map_eraseP]
  exact hnodup.not_mem_erase

theorem find_of_mem (hnodup : c.keys.Nodup) (hmem : (key, data) ∈ c.list) :
    c.list.find? (·.1 = key) = some (key, data) := by
  rw [keys] at hnodup
  generalize c.list = l at hnodup hmem ⊢
  induction l with
  | nil => cases hmem
  | cons entry l ih =>
      rw [List.map_cons, List.nodup_cons] at hnodup
      rcases List.mem_cons.mp hmem with rfl | hmem
      · exact List.find?_cons_of_pos (by simp)
      · rw [List.find?_cons_of_neg, ih hnodup.2 hmem]
        intro heq
        apply hnodup.1
        rw [of_decide_eq_true heq]
        exact List.mem_map.mpr ⟨_, hmem, rfl⟩

theorem find_of_notMem (hkey : key ∉ c.keys) : c.list.find? (·.1 = key) = none := by
  apply List.find?_eq_none.mpr
  intro entry hentry heq
  exact hkey (List.mem_map.mpr ⟨entry, hentry, of_decide_eq_true heq⟩)

theorem fetch_of_mem [Zero δ] (hnodup : c.keys.Nodup) (hmem : (key, data) ∈ c.list) :
    c.fetch key true = (data, ⟨(key, data) :: c.list.eraseP (·.1 = key), c.maxSize⟩) := by
  have hfind := find_of_mem hnodup hmem
  rw [fetch, hfind]
  dsimp only
  rw [if_pos rfl, touchKey, hfind]

theorem fetch_of_notMem [Zero δ] (hkey : key ∉ c.keys) (touchData : Bool) :
    c.fetch key touchData = (0, c) := by
  rw [fetch, find_of_notMem hkey]

omit [DecidableEq κ] in
theorem shrink_of_le {l : List (κ × δ)} {maxSize : Nat} (hlen : l.length ≤ maxSize) :
    shrink maxSize l removed = (l, removed) := by
  cases l with
  | nil => rfl
  | cons entry l => exact if_neg (by simpa using hlen)

theorem insert_of_notMem (hkey : key ∉ c.keys) (hlen : c.list.length ≤ c.maxSize) :
    (c.insert key data removed).1 = ⟨((key, data) :: c.list).take c.maxSize, c.maxSize⟩ ∧
      (c.list.length < c.maxSize ∧ (c.insert key data removed).2 = removed ∨
        ∃ l k, (key, data) :: c.list = l ++ [(k, (c.insert key data removed).2)] ∧
          l.length = c.maxSize) := by
  have htouch : c.touchKey key = c := by rw [touchKey, find_of_notMem hkey]
  have herase : c.list.eraseP (·.1 = key) = c.list := by
    apply List.eraseP_of_forall_not
    intro entry hentry heq
    exact hkey (List.mem_map.mpr ⟨entry, hentry, of_decide_eq_true heq⟩)
  unfold insert
  rw [htouch, herase]
  dsimp only
  generalize hall : (key, data) :: c.list = all
  have hcount : all.length = c.list.length + 1 := by rw [← hall, List.length_cons]
  by_cases hfull : c.list.length < c.maxSize
  · have hle : all.length ≤ c.maxSize := by omega
    rw [shrink_of_le (by rwa [List.length_reverse]), List.reverse_reverse,
      List.take_of_length_le hle]
    exact ⟨rfl, .inl ⟨hfull, rfl⟩⟩
  · obtain ⟨l, entry, rfl⟩ : ∃ l entry, all = l ++ [entry] := by
      refine ⟨_, _, (List.dropLast_append_getLast (l := all) ?_).symm⟩
      exact List.ne_nil_of_length_eq_add_one hcount
    have hl : l.length = c.maxSize := by
      rw [List.length_append, List.length_singleton] at hcount
      omega
    have hshrink : shrink c.maxSize (l ++ [entry]).reverse removed = (l.reverse, entry.2) := by
      rw [List.reverse_append, List.reverse_singleton, List.singleton_append, shrink,
        if_pos (by rw [List.length_reverse]; omega),
        shrink_of_le (by rw [List.length_reverse]; exact hl.le)]
    rw [hshrink]
    dsimp only
    rw [List.reverse_reverse, ← hl, List.take_left']
    · exact ⟨rfl, .inr ⟨l, entry.1, rfl, rfl⟩⟩
    · rfl

end LRUCache

namespace Client

def init : Client := ⟨⟨[], cacheSize⟩, fun _ => none⟩

/-- `str2SockLRU` over TCP. `made` is what `makeClientSocket` returns if it is called. -/
def str2SockLRU (members : List HostEntity) (s : Client) (str : Bytes) (made : Int) :
    Option (Client × Int) :=
  (str2Host members str).map fun dest =>
    let res := s.connectionCache.fetch dest.host true
    if res.1 ≤ 0 then
      let connected := if 0 ≤ made then Function.update s.connected made (some dest) else s.connected
      if made ≤ 0 then (⟨res.2, connected⟩, -1)
      else
        let ins := res.2.insert dest.host made (-1)
        (⟨ins.1, if ins.2 ≠ -1 then Function.update connected ins.2 none else connected⟩, made)
    else (⟨res.2, s.connected⟩, res.1)

/-- One call. A new socket is one that was not open. -/
def call (members : List HostEntity) (s : Client) (i : ClientCall × Int) : Option Client :=
  if s.connected i.2 = none then (str2SockLRU members s i.1.sent i.2).map Prod.fst else none

/-- The socket for the call, if there is one, leads to the member its key selects. -/
def Routed (members : List HostEntity) (s : Client) (i : ClientCall × Int) : Prop :=
  ∀ dest s' sock, str2Host members i.1.sent = some dest →
    str2SockLRU members s i.1.sent i.2 = some (s', sock) → 0 < sock → s'.connected sock = some dest

end Client

/-- The hosts a client that has reached these members last, the latest first, is connected to. -/
def cachedHosts (hist : List HostEntity) : List Bytes :=
  (recency (hist.map HostEntity.host)).take cacheSize

/-- A call that goes to a host which is still cached goes to the member that was reached there last. -/
def Steady (members : List HostEntity) : List HostEntity → List (ClientCall × Int) → Prop
  | _, [] => True
  | hist, i :: is => ∀ dest, str2Host members i.1.sent = some dest →
      (dest.host ∈ cachedHosts hist → hist.find? (·.host = dest.host) = some dest) ∧
        Steady members
          (if dest.host ∈ cachedHosts hist ∨ 0 < i.2 then dest :: hist else hist) is

namespace Client

variable {members : List HostEntity} {s : Client} {hist : List HostEntity} {dest : HostEntity}

/-- What a client knows of its sockets: each one in the cache leads to the member that was reached
last on its host. -/
structure Knows (s : Client) (hist : List HostEntity) : Prop where
  size : s.connectionCache.maxSize = cacheSize
  keys : s.connectionCache.keys = cachedHosts hist
  leads : ∀ e ∈ s.connectionCache.list, 0 < e.2 ∧ s.connected e.2 = hist.find? (·.host = e.1)
  distinct : (s.connectionCache.list.map Prod.snd).Nodup

theorem Knows.init : Knows init [] where
  size := rfl
  keys := rfl
  leads _ he := absurd he List.not_mem_nil
  distinct := List.nodup_nil

theorem cachedHosts_cons : cachedHosts (dest :: hist) =
    (touch dest.host (recency (hist.map HostEntity.host))).take cacheSize := rfl

theorem Knows.nodup (h : Knows s hist) : s.connectionCache.keys.Nodup := by
  rw [h.keys]
  exact (nodup_recency _).sublist (List.take_sublist _ _)

theorem find_of_mem_cachedHosts {host : Bytes} (h : host ∈ cachedHosts hist) :
    ∃ e, hist.find? (·.host = host) = some e := by
  obtain ⟨e, he, rfl⟩ := List.mem_map.mp (mem_recency.mp (List.mem_of_mem_take h))
  apply Option.isSome_iff_exists.mp
  rw [List.find?_isSome]
  exact ⟨e, he, by simp⟩

/-- The host is cached: its socket is returned, and leads where it was reached last. -/
theorem Knows.hit (h : Knows s hist) {str : Bytes} (made : Int)
    (hdest : str2Host members str = some dest) (hin : dest.host ∈ cachedHosts hist) :
    ∃ s' sock, str2SockLRU members s str made = some (s', sock) ∧ 0 < sock ∧
      s'.connected sock = hist.find? (·.host = dest.host) ∧
      (hist.find? (·.host = dest.host) = some dest → Knows s' (dest :: hist)) := by
  have hkey := hin
  rw [← h.keys] at hkey
  obtain ⟨⟨host, sock⟩, hmem, hhost⟩ := List.mem_map.mp hkey
  dsimp only at hhost
  subst hhost
  obtain ⟨hpos, hleads⟩ := h.leads _ hmem
  refine ⟨⟨⟨(dest.host, sock) :: s.connectionCache.list.eraseP (·.1 = dest.host),
    s.connectionCache.maxSize⟩, s.connected⟩, sock, ?_, hpos, hleads, ?_⟩
  · rw [str2SockLRU, hdest, Option.map_some, LRUCache.fetch_of_mem h.nodup hmem]
    have hsock : ¬sock ≤ 0 := Int.not_le.mpr hpos
    dsimp only
    rw [if_neg hsock]
  · intro hlast
    have hsub : ∀ e ∈ s.connectionCache.list.eraseP (·.1 = dest.host), e ∈ s.connectionCache.list :=
      fun e he => List.mem_of_mem_eraseP he
    refine ⟨h.size, ?_, ?_, ?_⟩
    · have hkeys : s.connectionCache.list.map Prod.fst = cachedHosts hist := h.keys
      rw [LRUCache.keys, List.map_cons, LRUCache.map_eraseP, hkeys, cachedHosts_cons,
        take_touch_of_mem hin]
      rfl
    · intro e he
      have he' : e ∈ s.connectionCache.list := by
        rcases List.mem_cons.mp he with rfl | he
        · exact hmem
        · exact hsub e he
      refine ⟨(h.leads e he').1, (h.leads e he').2.trans ?_⟩
      by_cases heq : dest.host = e.1
      · rw [← heq, hlast, List.find?_cons_of_pos (by simp)]
      · rw [List.find?_cons_of_neg (by simpa using heq)]
    · refine List.nodup_cons.mpr ⟨?_, h.distinct.sublist (List.eraseP_sublist.map _)⟩
      intro hsock
      obtain ⟨e, he, heq⟩ := List.mem_map.mp hsock
      have hsame := List.inj_on_of_nodup_map h.distinct (hsub e he) hmem heq
      exact LRUCache.notMem_eraseP h.nodup dest.host (List.mem_map.mpr ⟨e, he, by rw [hsame]⟩)

theorem Knows.ne_made (h : Knows s hist) {made : Int} (hnew : s.connected made = none)
    {e : Bytes × Int} (he : e ∈ s.connectionCache.list) : e.2 ≠ made := by
  intro heq
  have hin : e.1 ∈ cachedHosts hist := by
    rw [← h.keys]
    exact List.mem_map.mpr ⟨e, he, rfl⟩
  obtain ⟨d, hd⟩ := find_of_mem_cachedHosts hin
  have hleads := (h.leads e he).2
  rw [heq, hnew, hd] at hleads
  cases hleads

theorem Knows.length_le (h : Knows s hist) :
    s.connectionCache.list.length ≤ s.connectionCache.maxSize := by
  have hlen := congrArg List.length h.keys
  rw [LRUCache.keys, List.length_map] at hlen
  rw [hlen, h.size]
  exact List.length_take_le _ _

/-- With a new socket for a host that is not cached, all sockets lead where they should. -/
theorem Knows.leads_new (h : Knows s hist) (dest : HostEntity) {made : Int} (hkey : dest.host ∉ s.connectionCache.keys)
    (hnew : s.connected made = none) (hpos : 0 < made) :
    ∀ e ∈ (dest.host, made) :: s.connectionCache.list, 0 < e.2 ∧
      Function.update s.connected made (some dest) e.2 =
        (dest :: hist).find? (·.host = e.1) := by
  intro e he
  rcases List.mem_cons.mp he with rfl | he
  · exact ⟨hpos, by simp⟩
  · obtain ⟨hpos', hleads⟩ := h.leads e he
    refine ⟨hpos', ?_⟩
    rw [Function.update_of_ne (h.ne_made hnew he), hleads, List.find?_cons_of_neg]
    intro heq
    exact hkey (List.mem_map.mpr ⟨e, he, (of_decide_eq_true heq).symm⟩)

theorem Knows.distinct_new (h : Knows s hist) (dest : HostEntity) {made : Int} (hnew : s.connected made = none) :
    (((dest.host, made) :: s.connectionCache.list).map Prod.snd).Nodup := by
  refine List.nodup_cons.mpr ⟨?_, h.distinct⟩
  intro hmem
  obtain ⟨e, he, heq⟩ := List.mem_map.mp hmem
  exact h.ne_made hnew he heq

/-- The host is not cached: a socket is made for the member, or there is none. -/
theorem Knows.miss (h : Knows s hist) {str : Bytes} {made : Int}
    (hdest : str2Host members str = some dest) (hin : dest.host ∉ cachedHosts hist)
    (hnew : s.connected made = none) :
    ∃ s' sock, str2SockLRU members s str made = some (s', sock) ∧
      (0 < sock → s'.connected sock = some dest) ∧
      Knows s' (if 0 < made then dest :: hist else hist) := by
  have hkey := hin
  rw [← h.keys] at hkey
  rw [str2SockLRU, hdest, Option.map_some, LRUCache.fetch_of_notMem hkey true]
  dsimp only
  rw [if_pos (Int.le_refl 0)]
  by_cases hmade : made ≤ 0
  · rw [if_pos hmade, if_neg (Int.not_lt.mpr hmade)]
    refine ⟨_, _, rfl, nofun, h.size, h.keys, ?_, h.distinct⟩
    intro e he
    obtain ⟨hpos, hleads⟩ := h.leads e he
    refine ⟨hpos, Eq.trans ?_ hleads⟩
    dsimp only
    split
    · exact Function.update_of_ne (by omega) ..
    · rfl
  have hpos : 0 < made := Int.not_le.mp hmade
  rw [if_neg hmade, if_pos hpos]
  -- All that the cache could hold now, before the oldest goes.
  have hall := h.leads_new dest hkey hnew hpos
  have hdistinct := h.distinct_new dest hnew
  obtain ⟨hins, hremoved⟩ :=
    @LRUCache.insert_of_notMem _ _ _ _ _ made (-1) hkey h.length_le
  rw [hins, if_pos (Int.le_of_lt hpos)]
  generalize (s.connectionCache.insert dest.host made (-1)).2 = removed at hremoved ⊢
  have hkeys : (((dest.host, made) :: s.connectionCache.list).take s.connectionCache.maxSize).map
      Prod.fst = cachedHosts (dest :: hist) := by
    rw [cachedHosts_cons, take_touch_of_notMem (by decide) hin, List.map_take, h.size]
    exact congrArg (fun l => List.take cacheSize (dest.host :: l)) h.keys
  have hfirst : (dest.host, made) ∈
      ((dest.host, made) :: s.connectionCache.list).take s.connectionCache.maxSize := by
    rw [h.size]
    exact List.mem_cons_self
  have hleads : ∀ e ∈ ((dest.host, made) :: s.connectionCache.list).take s.connectionCache.maxSize,
      0 < e.2 ∧ (if removed ≠ -1 then
        Function.update (Function.update s.connected made (some dest)) removed none
        else Function.update s.connected made (some dest)) e.2 =
          (dest :: hist).find? (·.host = e.1) := by
    intro e he
    obtain ⟨hpos', hleads⟩ := hall e (List.mem_of_mem_take he)
    refine ⟨hpos', ?_⟩
    rcases hremoved with ⟨-, rfl⟩ | ⟨l, k, hsplit, hlen⟩
    · exact hleads
    · rw [hsplit, ← hlen, List.take_left'] at he
      · have hne : e.2 ≠ removed := by
          rw [hsplit, List.map_append, List.nodup_append] at hdistinct
          exact hdistinct.2.2 e.2 (List.mem_map_of_mem he) removed (by simp)
        split
        · rw [Function.update_of_ne hne, hleads]
        · exact hleads
      · rfl
  refine ⟨_, made, rfl, fun _ => ?_, h.size, hkeys, hleads, hdistinct.sublist ?_⟩
  · exact (hleads _ hfirst).2.trans (List.find?_cons_of_pos (by simp))
  · exact (List.take_sublist _ _).map _

theorem Knows.call (h : Knows s hist) {i : ClientCall × Int} {s' : Client}
    (hcall : call members s i = some s') : ∃ dest, str2Host members i.1.sent = some dest ∧
      (Routed members s i ↔
        (dest.host ∈ cachedHosts hist → hist.find? (·.host = dest.host) = some dest)) ∧
      ((dest.host ∈ cachedHosts hist → hist.find? (·.host = dest.host) = some dest) →
        Knows s' (if dest.host ∈ cachedHosts hist ∨ 0 < i.2 then dest :: hist else hist)) := by
  unfold Client.call at hcall
  split at hcall
  · next hnew =>
    obtain ⟨⟨s₁, sock⟩, hsock, rfl⟩ := Option.map_eq_some_iff.mp hcall
    obtain ⟨dest, hdest, -⟩ := Option.map_eq_some_iff.mp hsock
    refine ⟨dest, hdest, ?_⟩
    have hrouted : Routed members s i ↔ (0 < sock → s₁.connected sock = some dest) := by
      constructor
      · exact fun hr => hr dest s₁ sock hdest hsock
      · intro hr dest' s₂ sock' hdest' hsock' hpos
        cases hdest.symm.trans hdest'
        cases hsock.symm.trans hsock'
        exact hr hpos
    by_cases hin : dest.host ∈ cachedHosts hist
    · obtain ⟨s₂, sock', hrun, hpos, hleads, hknows⟩ := h.hit i.2 hdest hin
      cases hsock.symm.trans hrun
      rw [hrouted, hleads, if_pos (.inl hin)]
      exact ⟨⟨fun hr _ => hr hpos, fun hr _ => hr hin⟩, fun hr => hknows (hr hin)⟩
    · obtain ⟨s₂, sock', hrun, hleads, hknows⟩ := h.miss hdest hin hnew
      cases hsock.symm.trans hrun
      rw [hrouted]
      refine ⟨iff_of_true hleads fun hr => absurd hr hin, fun _ => ?_⟩
      by_cases hmade : 0 < i.2
      · rw [if_pos (.inr hmade)]
        rwa [if_pos hmade] at hknows
      · rw [if_neg (not_or.mpr ⟨hin, hmade⟩)]
        rwa [if_neg hmade] at hknows
  · cases hcall

theorem eachStep_routed_iff (h : Knows s hist) {is : List (ClientCall × Int)}
    (hrun : (run (call members) s is).isSome) :
    EachStep (call members) (Routed members) s is ↔ Steady members hist is := by
  induction is generalizing s hist with
  | nil => exact iff_of_true trivial trivial
  | cons i is ih =>
      obtain ⟨s₂, hrun⟩ := Option.isSome_iff_exists.mp hrun
      rw [run_cons, Option.bind_eq_some_iff] at hrun
      obtain ⟨s₁, hcall, hrest⟩ := hrun
      obtain ⟨dest, hdest, hrouted, hknows⟩ := h.call hcall
      constructor
      · intro hall dest' hdest'
        cases hdest.symm.trans hdest'
        obtain ⟨hr, hlater⟩ := hall s₁ hcall
        have hsteady := hrouted.mp hr
        exact ⟨hsteady, (ih (hknows hsteady) (by rw [hrest]; rfl)).mp hlater⟩
      · intro hall s₁' hcall'
        cases hcall.symm.trans hcall'
        obtain ⟨hsteady, hlater⟩ := hall dest hdest
        exact ⟨hrouted.mpr hsteady, (ih (hknows hsteady) (by rw [hrest]; rfl)).mpr hlater⟩

/-- **Requests reach their servers** as long as no call goes to a host that is still cached, but for
another of its ports. -/
theorem routed_iff_steady (members : List HostEntity) (is : List (ClientCall × Int))
    (hrun : (run (call members) init is).isSome) :
    EachStep (call members) (Routed members) init is ↔ Steady members [] is :=
  eachStep_routed_iff Knows.init hrun

/-- Two hosts and three calls, one of them to a host that is cached. -/
theorem routed_iff_steady_two_hosts :
    EachStep (call [⟨cstr "n1", 50000⟩, ⟨cstr "n2", 50000⟩])
        (Routed [⟨cstr "n1", 50000⟩, ⟨cstr "n2", 50000⟩]) init
        [(.insert (insertPackage (cstr "/a") (cstr "x")).serialize, 3),
          (.lookup (lookupPackage (cstr "/b")).serialize, 4),
          (.remove (lookupPackage (cstr "/a")).serialize, 5)] ↔
      Steady [⟨cstr "n1", 50000⟩, ⟨cstr "n2", 50000⟩] []
        [(.insert (insertPackage (cstr "/a") (cstr "x")).serialize, 3),
          (.lookup (lookupPackage (cstr "/b")).serialize, 4),
          (.remove (lookupPackage (cstr "/a")).serialize, 5)] :=
  routed_iff_steady [⟨cstr "n1", 50000⟩, ⟨cstr "n2", 50000⟩]
    [(.insert (insertPackage (cstr "/a") (cstr "x")).serialize, 3),
      (.lookup (lookupPackage (cstr "/b")).serialize, 4),
      (.remove (lookupPackage (cstr "/a")).serialize, 5)] (by decide +kernel)

/-- With two members on one host, the second call goes to the server of the first. -/
theorem not_routed :
    [(⟨cstr "n1", 50000⟩ : HostEntity), ⟨cstr "n1", 50001⟩].Nodup ∧
      ∃ s, run (call [⟨cstr "n1", 50000⟩, ⟨cstr "n1", 50001⟩]) init
          [(.insert (insertPackage (cstr "/a") (cstr "x")).serialize, 3)] = some s ∧
        str2Host [⟨cstr "n1", 50000⟩, ⟨cstr "n1", 50001⟩]
          (insertPackage (cstr "/b") (cstr "x")).serialize = some ⟨cstr "n1", 50001⟩ ∧
        ∃ r, str2SockLRU [⟨cstr "n1", 50000⟩, ⟨cstr "n1", 50001⟩] s
            (insertPackage (cstr "/b") (cstr "x")).serialize 4 = some r ∧
          0 < r.2 ∧ r.1.connected r.2 = some ⟨cstr "n1", 50000⟩ := by
  refine ⟨by decide, ?_⟩
  have htest : (run (call [⟨cstr "n1", 50000⟩, ⟨cstr "n1", 50001⟩]) init
      [(.insert (insertPackage (cstr "/a") (cstr "x")).serialize, 3)]).any (fun s =>
        (str2SockLRU [⟨cstr "n1", 50000⟩, ⟨cstr "n1", 50001⟩] s
          (insertPackage (cstr "/b") (cstr "x")).serialize 4).any fun r =>
            decide (0 < r.2 ∧ r.1.connected r.2 = some ⟨cstr "n1", 50000⟩)) = true := by
    decide +kernel
  obtain ⟨s, hrun, hsock⟩ := exists_run_of_any htest
  obtain ⟨r, hr, hleads⟩ := (Option.any_eq_true _ _).mp hsock
  exact ⟨s, hrun, by decide +kernel, r, hr, of_decide_eq_true hleads⟩

/-- Members on hosts of their own are never mixed up. -/
theorem steady_of_nodup_hosts {members : List HostEntity}
    (hnodup : (members.map HostEntity.host).Nodup) {hist : List HostEntity}
    (hhist : ∀ e ∈ hist, e ∈ members) (is : List (ClientCall × Int)) : Steady members hist is := by
  induction is generalizing hist with
  | nil => trivial
  | cons i is ih =>
      intro dest hdest
      have hmem : dest ∈ members := List.mem_of_getElem? hdest
      refine ⟨fun hin => ?_, ih ?_⟩
      · obtain ⟨e, he⟩ := find_of_mem_cachedHosts hin
        have hhost : e.host = dest.host := by simpa using List.find?_some he
        rw [he, List.inj_on_of_nodup_map hnodup (hhist e (List.mem_of_find?_eq_some he)) hmem hhost]
      · split
        · intro e he
          rcases List.mem_cons.mp he with rfl | he
          · exact hmem
          · exact hhist e he
        · exact hhist

end Client

end FusionFS
