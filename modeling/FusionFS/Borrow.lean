import FusionFS.Ownership

/-!
# Borrowed files

A node opens a file of another node for writing. Until the handle is released, the local copy should
hold what was fetched with the writes applied in order; the release publishes it. `fusion_getattr`
fetches the file again whenever it is called.
-/

namespace FusionFS

open SecondChance Transition

variable {Node : Type} [DecidableEq Node] {net : Net Node}

/-- What happens between the opening and the release of a handle. The contents are those the file had
at the opening, with all writes since. -/
structure Session (Node : Type) where
  cluster : Cluster Node
  content : Bytes
  released : Bool

/-- The session right after `fusion_open`. -/
def Session.opened (net : Net Node) (n : Node) (p : FilePath) (c : Cluster Node) : Session Node where
  cluster := c
  content := match (c.disk n).openIno (net.root.fullpath p.bytes) with
    | some i => (c.disk n).data i
    | none => []
  released := false

/-- The calls the node makes on the file, up to the release of the handle. -/
def onFile (n : Node) (p : FilePath) (fd : Nat) (c : Cluster Node) : Op Node → Bool
  | .getattr m _ x => m = n ∧ x = p.bytes
  | .open m _ q _ => m = n ∧ q = p
  | .read m fd' _ _ => m = n ∧ ((c.node n).fds fd').any (·.path = p)
  | .write m fd' _ _ => m = n ∧ ((c.node n).fds fd').any (·.path = p)
  | .release m _ _ fd' => m = n ∧ fd' = fd
  | _ => false

def Op.isRelease : Op Node → Bool
  | .release _ _ _ _ => true
  | _ => false

def contentAfter (content : Bytes) : Op Node → Bytes
  | .write _ _ off buf => pwrite content off buf
  | _ => content

def sessionStep (net : Net Node) (n : Node) (p : FilePath) (fd : Nat) (s : Session Node)
    (op : Op Node) : Option (Session Node) :=
  if s.released = false ∧ onFile n p fd s.cluster op = true then
    (step net s.cluster op).map fun c => ⟨c, contentAfter s.content op, op.isRelease⟩
  else none

/-- Reads through the handle give the written bytes, and its release publishes them. -/
structure ReadYourWrites (net : Net Node) (n : Node) (p : FilePath) (fd : Nat) (s : Session Node) :
    Prop where
  held : s.released = false → ∃ h, (s.cluster.node n).fds fd = some h ∧
    (s.cluster.disk n).data h.ino = s.content
  reads : s.released = false → ∀ off size bytes,
    fusionRead n fd off size s.cluster = some bytes → bytes = (s.content.drop off).take size
  published : s.released = true → Registered net s.cluster p n ∧
    ∃ i, (s.cluster.slot net n p.bytes).ino = some i ∧ (s.cluster.disk n).data i = s.content

/-- What `fusion_getattr` writes over the local file. -/
def fetchedBytes (net : Net Node) (n : Node) (junk path : Bytes) (c : Cluster Node) :
    Option Bytes := do
  let fpath := net.root.fullpath path
  let res := realIp junk (← c.zht path)
  if (c.disk n).access fpath = false ∨ (path ≠ [slash] ∧ res.2 ≠ net.ip n) then
    let m ← net.host res.2
    let j ← (c.disk m).openIno (remotePath fpath res.1)
    some ((c.disk m).data j)
  else none

/-- A look at the file fetches nothing but the bytes that are there, a write goes to the file behind
the handle, and the release does not take the owner's address for the local one. -/
def KeepsBytes (net : Net Node) (n : Node) (p : FilePath) (fd : Nat) (s : Session Node) :
    Op Node → Prop
  | .getattr _ junk x => ∀ bytes, fetchedBytes net n junk x s.cluster = some bytes → bytes = s.content
  | .write _ fd' off buf => ∀ h h', (s.cluster.node n).fds fd = some h →
      (s.cluster.node n).fds fd' = some h' → h'.ino = h.ino ∨ pwrite s.content off buf = s.content
  | .release _ _ junk _ => net.ip n ≠ (realIp junk (zhtValue s.cluster.zht p.bytes)).2 ∨
      Registered net s.cluster p n
  | _ => True

/-! ### The calls on a file that is open -/

section Calls

variable {c c' : Cluster Node} {n : Node} {full : List Bool} {p : FilePath} {i : Nat}

/-- `fusion_getattr` on a file that is there overwrites it with what it fetches. -/
theorem getattr_of_ino (junk : Bytes) (hs : Sound net c) (hi : (c.slot net n p.bytes).ino = some i) :
    (fusionGetattr net n junk p.bytes c).2 = match fetchedBytes net n junk p.bytes c with
      | some bytes => c.setDisk n ((c.disk n).setData i bytes)
      | none => c := by
  have hlstat : (c.disk n).lstat (net.root.fullpath p.bytes) = true := by
    have hentry : ((c.disk n).slot net.root p.bytes).ssd ≠ none := by
      intro hnone
      rw [Cluster.slot, Slot.ino, hnone] at hi
      cases hi
    rw [Disk.lstat, Disk.entry_fullpath, Option.isSome_iff_ne_none.mpr hentry, Bool.true_or]
  unfold fusionGetattr fetchedBytes
  cases hz : c.zht p.bytes with
  | none =>
      cases c.zht (p.bytes ++ [slash]) with
      | none => simp
      | some v => simp [Disk.mkdir, hlstat, Cluster.setDisk_self]
  | some val =>
      by_cases hfetch : (c.disk n).access (net.root.fullpath p.bytes) = false ∨
          (p.bytes ≠ [slash] ∧ (realIp junk val).2 ≠ net.ip n)
      · simp only [if_pos hfetch, ffsRecvfile, Option.bind_eq_bind, Option.bind_some]
        cases net.host (realIp junk val).2 with
        | none => simp
        | some m =>
            cases hj : (c.disk m).openIno
                (remotePath (net.root.fullpath p.bytes) (realIp junk val).1) with
            | none => simp [hj]
            | some j => simp [hj, (hs.sane n).store_of_ino hi]
      · simp [if_neg hfetch]

theorem open_keeps (hs : Sound net c) {fd : Nat} {mode : OpenMode}
    (hc : fusionOpen net n full p mode c = some (fd, c'))
    (hi : (c.slot net n p.bytes).ino = some i) :
    (c'.slot net n p.bytes).ino = some i ∧ (c'.disk n).data = (c.disk n).data := by
  obtain ⟨c₁, q, -, hprom, -, hdisk, -⟩ := hs.open hc
  rw [Cluster.slot, hdisk n]
  rcases hprom with ⟨-, rfl, -⟩ | ⟨hsym, -, c₀, d, hev, rfl, hmoved, -, t, ht⟩
  · exact ⟨hi, rfl⟩
  · have hi₀ := hev.ino p.bytes i hi
    rw [Cluster.disk_setDisk_self, hmoved.at, hmoved.data, hev.data]
    refine ⟨?_, rfl⟩
    generalize c₀.slot net n p.bytes = s at ht hi₀
    obtain ⟨ssd, hdd⟩ := s
    cases ht
    cases hdd with
    | none => simp [Slot.ino] at hi₀
    | some e =>
        cases e with
        | file j => simpa [Slot.ino, Slot.promoted] using hi₀
        | link u => simp [Slot.ino] at hi₀

theorem data_ffsRmfile (addr remote : Bytes) (m : Node) :
    ((ffsRmfile net addr remote c).disk m).data = (c.disk m).data := by
  unfold ffsRmfile
  cases net.host addr with
  | none => rfl
  | some k =>
      by_cases hmk : m = k
      · subst hmk
        simp [Disk.unlink]
      · simp [hmk]

theorem publish_keeps (full : List Bool) (hs : Sound net c) {nodeaddr : Bool × Bytes} (hremote : net.ip n ≠ nodeaddr.2)
    (hi : (c.slot net n p.bytes).ino = some i) :
    Registered net (publish net n full p.bytes nodeaddr c) p n ∧
      ((publish net n full p.bytes nodeaddr c).slot net n p.bytes).ino = some i ∧
      ((publish net n full p.bytes nodeaddr c).disk n).data = (c.disk n).data := by
  obtain ⟨c₁, hc₁, -, -, hev, -⟩ := hs.publish n full p.bytes nodeaddr
  refine ⟨?_, hev.ino p.bytes i ?_, ?_⟩
  · rw [Registered, hev.zht]
    split
    · exact Or.inr rfl
    · rw [hc₁, zht_ffsRmfile]
      exact Or.inl zhtInsert_self
  · rw [hc₁, slot_ffsRmfile_of_ip_ne _ _ _ hremote]
    exact hi
  · rw [hev.data, hc₁, data_ffsRmfile]
    rfl

end Calls

/-! ### The session -/

/-- The handle leads to the file at the path, which holds the written bytes. -/
structure InSync (net : Net Node) (n : Node) (p : FilePath) (fd : Nat) (c : Cluster Node)
    (content : Bytes) (h : Handle) : Prop where
  fds : (c.node n).fds fd = some h
  path : h.path = p
  mode : h.mode ≠ .rdonly
  lt : fd < (c.node n).nextFd
  ino : (c.slot net n p.bytes).ino = some h.ino
  data : (c.disk n).data h.ino = content

/-- The invariant of a session. -/
def SessionInv (net : Net Node) (n : Node) (p : FilePath) (fd : Nat) (s : Session Node) : Prop :=
  Sound net s.cluster ∧ (s.released = false → ∃ h, InSync net n p fd s.cluster s.content h) ∧
  (s.released = true → Registered net s.cluster p n ∧
    ∃ i, (s.cluster.slot net n p.bytes).ino = some i ∧ (s.cluster.disk n).data i = s.content)

omit [DecidableEq Node] in
theorem SessionInv.readYourWrites {n : Node} {p : FilePath} {fd : Nat} {s : Session Node}
    (h : SessionInv net n p fd s) : ReadYourWrites net n p fd s := by
  refine ⟨fun hopen => ?_, fun hopen off size bytes hread => ?_, h.2.2⟩
  · obtain ⟨hd, hsync⟩ := h.2.1 hopen
    exact ⟨hd, hsync.fds, hsync.data⟩
  · obtain ⟨hd, hsync⟩ := h.2.1 hopen
    simp only [fusionRead, hsync.fds, hsync.data, Option.bind_eq_bind, Option.bind_some] at hread
    split at hread
    · cases hread
    · exact (Option.some.inj hread).symm

omit [DecidableEq Node] in
theorem InSync.congr {c c' : Cluster Node} {n : Node} {p : FilePath} {fd : Nat} {content : Bytes}
    {h : Handle} (hsync : InSync net n p fd c content h)
    (hfds : (c'.node n).fds fd = (c.node n).fds fd)
    (hnext : (c.node n).nextFd ≤ (c'.node n).nextFd)
    (hino : (c'.slot net n p.bytes).ino = some h.ino) :
    InSync net n p fd c' ((c'.disk n).data h.ino) h :=
  ⟨hfds.trans hsync.fds, hsync.path, hsync.mode, hsync.lt.trans_le hnext, hino, rfl⟩

omit [DecidableEq Node] in
theorem InSync.self {c : Cluster Node} {n : Node} {p : FilePath} {fd : Nat} {content : Bytes}
    {h : Handle} (hsync : InSync net n p fd c content h) :
    InSync net n p fd c ((c.disk n).data h.ino) h :=
  hsync.congr rfl le_rfl hsync.ino

theorem InSync.setData {c : Cluster Node} {n : Node} {p : FilePath} {fd : Nat} {content : Bytes}
    {h : Handle} (hsync : InSync net n p fd c content h) (i : Nat) (bytes : Bytes) :
    InSync net n p fd (c.setDisk n ((c.disk n).setData i bytes))
      (Function.update (c.disk n).data i bytes h.ino) h := by
  have hino : ((c.setDisk n ((c.disk n).setData i bytes)).slot net n p.bytes).ino = some h.ino := by
    rw [Cluster.slot_setDisk_self, Disk.slot_setData]
    exact hsync.ino
  have hnew := hsync.congr (by simp) (by simp) hino
  rwa [Cluster.disk_setDisk_self] at hnew

/-- The calls before the release keep the handle, and they keep it right exactly when they keep the
bytes. -/
theorem inSync_step {c c' : Cluster Node} {n : Node} {p : FilePath} {fd : Nat} {content : Bytes}
    {h : Handle} {op : Op Node} (hs : Sound net c) (hsync : InSync net n p fd c content h)
    (hon : onFile n p fd c op = true) (hrel : op.isRelease = false)
    (hstep : step net c op = some c') :
    InSync net n p fd c' ((c'.disk n).data h.ino) h ∧
      ((c'.disk n).data h.ino = contentAfter content op ↔
        KeepsBytes net n p fd ⟨c, content, false⟩ op) := by
  cases op with
  | create m full q => cases hon
  | truncate m q size => cases hon
  | unlink m junk q => cases hon
  | release m full junk fd' => cases hrel
  | getattr m junk x =>
      obtain ⟨rfl, rfl⟩ : m = n ∧ x = p.bytes := by simpa [onFile] using hon
      obtain rfl : (fusionGetattr net m junk p.bytes c).2 = c' := Option.some.inj hstep
      rw [getattr_of_ino junk hs hsync.ino]
      cases hfetch : fetchedBytes net m junk p.bytes c with
      | none => exact ⟨hsync.self, by simp [KeepsBytes, contentAfter, hfetch, hsync.data]⟩
      | some bytes =>
          have hnew := hsync.setData h.ino bytes
          simp only [Function.update_self] at hnew
          refine ⟨by simpa [Disk.setData] using hnew, ?_⟩
          simp [KeepsBytes, contentAfter, hfetch, Disk.setData]
  | «open» m full q mode =>
      obtain ⟨rfl, rfl⟩ : m = n ∧ q = p := by simpa [onFile] using hon
      obtain ⟨⟨fd', c''⟩, hc, heq⟩ := Option.map_eq_some_iff.mp hstep
      obtain rfl : c'' = c' := heq
      obtain ⟨hino, hdata⟩ := open_keeps hs hc hsync.ino
      obtain ⟨_, _, _, -, -, -, -, -, hfd', -, hfds, hnext⟩ := hs.open hc
      have hne : fd ≠ fd' := by
        have := hsync.lt
        omega
      refine ⟨hsync.congr ?_ (by omega) hino, ?_⟩
      · rw [hfds, Function.update_of_ne hne]
      · rw [hdata]
        exact iff_of_true hsync.data trivial
  | read m fd' off size =>
      obtain ⟨_, -, rfl⟩ := Option.map_eq_some_iff.mp hstep
      exact ⟨hsync.self, iff_of_true hsync.data trivial⟩
  | write m fd' off buf =>
      obtain rfl : m = n := by
        simp only [onFile, Bool.decide_and, Bool.and_eq_true, decide_eq_true_eq] at hon
        exact hon.1
      obtain ⟨h', hfd', -, rfl⟩ := write_cases hstep
      have hnew := hsync.setData h'.ino (pwrite ((c.disk m).data h'.ino) off buf)
      have hguard : KeepsBytes net m p fd ⟨c, content, false⟩ (.write m fd' off buf) ↔
          h'.ino = h.ino ∨ pwrite content off buf = content := by
        refine ⟨fun hg => hg h h' hsync.fds hfd', fun hg h₁ h₂ hh₁ hh₂ => ?_⟩
        obtain rfl := Option.some.inj (hsync.fds.symm.trans hh₁)
        obtain rfl := Option.some.inj (hfd'.symm.trans hh₂)
        exact hg
      refine ⟨by simpa [Disk.setData] using hnew, ?_⟩
      rw [hguard, Cluster.disk_setDisk_self]
      by_cases hino : h'.ino = h.ino
      · simp [Disk.setData, contentAfter, hino, hsync.data]
      · simp [Disk.setData, contentAfter, hino, hsync.data, Ne.symm hino, eq_comm]

/-- The release publishes the written bytes unless it takes the owner's address for the local one. -/
theorem inSync_release {c c' : Cluster Node} {n : Node} {p : FilePath} {fd : Nat} {content : Bytes}
    {h : Handle} {full : List Bool} {junk : Bytes} (hs : Sound net c)
    (hsync : InSync net n p fd c content h)
    (hc : fusionRelease net n full junk fd c = some c') :
    ((c'.slot net n p.bytes).ino = some h.ino ∧ (c'.disk n).data h.ino = content) ∧
      (Registered net c' p n ↔
        net.ip n ≠ (realIp junk (zhtValue c.zht p.bytes)).2 ∨ Registered net c p n) := by
  obtain ⟨h', nodeaddr, hfd, rfl, hcase⟩ := release_cases hc
  obtain rfl : h' = h := Option.some.inj (hfd.symm.trans hsync.fds)
  have hpath := hsync.path
  have hino₀ : ((c.setHandle n fd none).slot net n p.bytes).ino = some h'.ino := by
    simpa [Cluster.slot] using hsync.ino
  rcases hcase with ⟨hlocal, rfl⟩ | ⟨hremote, -, rfl⟩ | ⟨-, hmode, -⟩
  · refine ⟨⟨hino₀, by simpa using hsync.data⟩, ?_⟩
    rw [← hpath, ← hlocal]
    simp [Registered]
  · rw [hpath] at hremote ⊢
    obtain ⟨hreg, hino, hdata⟩ := publish_keeps full (hs.setHandle n fd none) hremote hino₀
    refine ⟨⟨hino, ?_⟩, iff_of_true hreg (Or.inl hremote)⟩
    rw [hdata]
    simpa using hsync.data
  · exact absurd hmode hsync.mode

theorem sessionStep_cases {n : Node} {p : FilePath} {fd : Nat} {s s' : Session Node} {op : Op Node}
    (h : sessionStep net n p fd s op = some s') :
    s.released = false ∧ onFile n p fd s.cluster op = true ∧ step net s.cluster op = some s'.cluster ∧
      s'.content = contentAfter s.content op ∧ s'.released = op.isRelease := by
  unfold sessionStep at h
  split at h
  · rename_i hopen
    obtain ⟨c, hstep, rfl⟩ := Option.map_eq_some_iff.mp h
    exact ⟨hopen.1, hopen.2, hstep, rfl, rfl⟩
  · cases h

theorem readYourWrites_step {n : Node} {p : FilePath} {fd : Nat} {s s' : Session Node} {op : Op Node}
    (hinv : SessionInv net n p fd s) (hstep : sessionStep net n p fd s op = some s') :
    (KeepsBytes net n p fd s op → SessionInv net n p fd s') ∧
      (ReadYourWrites net n p fd s' → KeepsBytes net n p fd s op) := by
  obtain ⟨hopen, hon, hc, hcontent, hrel⟩ := sessionStep_cases hstep
  obtain ⟨hs, hheld, -⟩ := hinv
  obtain ⟨h, hsync⟩ := hheld hopen
  clear hheld
  obtain ⟨c, content, released⟩ := s
  obtain ⟨c', content', released'⟩ := s'
  simp only at hopen hon hc hcontent hrel hs hsync
  subst hopen hcontent hrel
  have hs' := hs.step hc
  cases hr : op.isRelease with
  | false =>
      obtain ⟨hnew, hiff⟩ := inSync_step hs hsync hon hr hc
      refine ⟨fun hg => ⟨hs', fun _ => ⟨h, ?_⟩, by simp⟩, fun hp => hiff.mp ?_⟩
      · exact hiff.mpr hg ▸ hnew
      · obtain ⟨h', hfds, hdata⟩ := hp.held rfl
        obtain rfl := Option.some.inj (hnew.fds.symm.trans hfds)
        exact hdata
  | true =>
      cases op with
      | release m full junk fd' =>
          obtain ⟨rfl, rfl⟩ : m = n ∧ fd' = fd := by simpa [onFile] using hon
          obtain ⟨⟨hino, hdata⟩, hiff⟩ := inSync_release hs hsync hc
          exact ⟨fun hg => ⟨hs', by simp, fun _ => ⟨hiff.mpr hg, h.ino, hino, hdata⟩⟩,
            fun hp => hiff.mp (hp.published rfl).1⟩
      | _ => cases hr

/-- **When a borrowed file reads as written.** From the opening to the release, reads give the written
bytes and the release publishes them, along exactly those sequences of calls in which a look at the
file fetches no other bytes, the writes go to the file behind the handle, and the release takes the
owner for another node. -/
theorem readYourWrites_iff (net : Net Node) {c₀ c c' : Cluster Node} (hinit : Initial c₀)
    {before : List (Op Node)} (hrun : run (step net) c₀ before = some c) {n : Node}
    {full : List Bool} {p : FilePath} {mode : OpenMode} {fd : Nat}
    (hopen : fusionOpen net n full p mode c = some (fd, c')) (hmode : mode ≠ .rdonly)
    (ops : List (Op Node)) :
    Always (sessionStep net n p fd) (ReadYourWrites net n p fd) (Session.opened net n p c') ops ↔
      EachStep (sessionStep net n p fd) (KeepsBytes net n p fd) (Session.opened net n p c') ops := by
  have hs : Sound net c := run_of_invariant (G := fun _ _ => True)
    (fun _ _ _ h hstep _ => h.step hstep) hinit.sound (eachStep_true _ _) hrun
  have hs' : Sound net c' := by
    have hstep : step net c (.open n full p mode) = some c' := by simp [step, hopen]
    exact hs.step hstep
  obtain ⟨c₁, q, i, -, hino, hdisk, -, -, hfd, -, hfds, hnext⟩ := hs.open hopen
  have hino' : (c'.slot net n p.bytes).ino = some i := by
    rw [Cluster.slot, hdisk n]
    exact hino
  have hsync : InSync net n p fd c' (Session.opened net n p c').content ⟨p, i, mode⟩ := by
    refine ⟨by rw [hfds, Function.update_self], rfl, hmode, by omega, hino', ?_⟩
    have hopened : (c'.disk n).openIno (net.root.fullpath p.bytes) = some i :=
      ((hs'.sane n).openIno_fullpath p.bytes).trans hino'
    simp [Session.opened, hopened]
  refine always_iff_eachStep (I := SessionInv net n p fd) (fun _ h => h.readYourWrites) ?_ ?_
    ⟨hs', fun _ => ⟨_, hsync⟩, by simp [Session.opened]⟩ ops
  · exact fun s op s' hinv hstep => (readYourWrites_step hinv hstep).1
  · exact fun s op s' hinv hstep => (readYourWrites_step hinv hstep).2

/-- A node creates a file, and another one looks at it. -/
def sharedFile : List (Op Bool) :=
  [.create false [] (filePath "/f" path_f), .release false [] [] 0,
    .getattr true [] (cstr "/f")]

/-- A write, and a look at the file before the handle is released. -/
def dirtyStat : List (Op Bool) := [.write true 0 0 (cstr "x"), .getattr true [] (cstr "/f")]

theorem readYourWrites_iff_dirtyStat :
    ∃ c fd c', run (step twoNodes) freshCluster sharedFile = some c ∧
      fusionOpen twoNodes true [] (filePath "/f" (by decide)) .rdwr c = some (fd, c') ∧
      (Always (sessionStep twoNodes true (filePath "/f" (by decide)) fd)
          (ReadYourWrites twoNodes true (filePath "/f" (by decide)) fd)
          (Session.opened twoNodes true (filePath "/f" (by decide)) c') dirtyStat ↔
        EachStep (sessionStep twoNodes true (filePath "/f" (by decide)) fd)
          (KeepsBytes twoNodes true (filePath "/f" (by decide)) fd)
          (Session.opened twoNodes true (filePath "/f" (by decide)) c') dirtyStat) := by
  have h : (run (step twoNodes) freshCluster sharedFile).any (fun c =>
      (fusionOpen twoNodes true [] (filePath "/f" (by decide)) .rdwr c).isSome) = true := by
    decide +kernel
  obtain ⟨c, hrun, hsome⟩ := exists_run_of_any h
  obtain ⟨⟨fd, c'⟩, hopen⟩ := Option.isSome_iff_exists.mp hsome
  exact ⟨c, fd, c', hrun, hopen,
    readYourWrites_iff twoNodes freshCluster_initial hrun hopen (by decide) dirtyStat⟩

/-- The other node owns the file, and the written byte is gone before the handle is released. -/
theorem dirtyStat_loses_write :
    ∃ c fd c' s, run (step twoNodes) freshCluster sharedFile = some c ∧
      fusionOpen twoNodes true [] (filePath "/f" (by decide)) .rdwr c = some (fd, c') ∧
      c'.zht (cstr "/f") = some (twoNodes.ip false) ∧
      run (sessionStep twoNodes true (filePath "/f" (by decide)) fd)
        (Session.opened twoNodes true (filePath "/f" (by decide)) c') dirtyStat = some s ∧
      s.content = cstr "x" ∧ fusionRead true fd 0 1 s.cluster = some [] := by
  have h : (run (step twoNodes) freshCluster sharedFile).any (fun c =>
      (fusionOpen twoNodes true [] (filePath "/f" (by decide)) .rdwr c).any (fun r =>
        decide (r.2.zht (cstr "/f") = some (twoNodes.ip false)) &&
        (run (sessionStep twoNodes true (filePath "/f" (by decide)) r.1)
          (Session.opened twoNodes true (filePath "/f" (by decide)) r.2) dirtyStat).any (fun s =>
            decide (s.content = cstr "x" ∧ fusionRead true r.1 0 1 s.cluster = some []))))
      = true := by decide +kernel
  obtain ⟨c, hrun, hc⟩ := exists_run_of_any h
  obtain ⟨⟨fd, c'⟩, hopen, hr⟩ := (Option.any_eq_true _ _).mp hc
  obtain ⟨hzht, hsession⟩ := Bool.and_eq_true_iff.mp hr
  obtain ⟨s, hs, hlost⟩ := exists_run_of_any hsession
  obtain ⟨hcontent, hread⟩ := of_decide_eq_true hlost
  exact ⟨c, fd, c', s, hrun, hopen, of_decide_eq_true hzht, hs, hcontent, hread⟩

end FusionFS
