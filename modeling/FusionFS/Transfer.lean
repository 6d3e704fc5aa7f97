import FusionFS.Removed

/-!
# Transfers that fail

`ffs_recvfile` with every call that may return an error, and the daemon at the other end, which reads
a file that may change meanwhile. The calls are those of one transfer; `T` are its moments. The disks
have room.
-/

namespace FusionFS.Transfer

/-- The calls of `_recvfile_udt` up to the answer of the daemon. -/
inductive Call where
  | getaddrinfo
  | connect
  | sendKind
  | sendLen
  | sendName
  | recvSize
  deriving DecidableEq

/-- What one transfer meets. `readAt` has for each offset the moment at which the daemon reads it;
`arrives` bytes of the file get to the client before the connection ends. `_recvfile_udt` ends
without a `return`, and its caller takes what is left in that place, `leftover`, for the result. A
`leftover` of -1 stands also for a `recvfile` that is called for an empty file and fails, for it finds
the connection broken. -/
structure Link (T : Type) where
  fails : Call → Bool
  owner : T → Disk
  opened : T
  sized : T
  readAt : Nat → T
  arrives : Nat
  leftover : Int

variable {T : Type}

/-- The contents of the file that a path leads to. -/
def content (d : Disk) (path : Bytes) : Option Bytes := (d.openIno path).map d.data

/-! ### The daemon -/

/-- `sendfile` from an offset on. It stops where the file ends at that moment. -/
def sendfile (data : T → Bytes) (readAt : Nat → T) : Nat → Nat → Bytes
  | 0, _ => []
  | tosend + 1, offset =>
      match (data (readAt offset))[offset]? with
      | some byte => byte :: sendfile data readAt tosend (offset + 1)
      | none => []

namespace Link

variable (l : Link T) (remote : Bytes)

/-- `size` in `transfile`: where the file ends, or -1 where there is none. -/
def size : Int :=
  match (l.owner l.opened).openIno remote with
  | some i => ((l.owner l.sized).data i).length
  | none => -1

/-- The byte of the open file that the daemon reads at an offset. -/
def reads (offset : Nat) : Option UInt8 :=
  ((l.owner l.opened).openIno remote).bind fun i => ((l.owner (l.readAt offset)).data i)[offset]?

/-- What `transfile` sends of the file. -/
def served : Bytes :=
  match (l.owner l.opened).openIno remote with
  | some i => sendfile (fun t => (l.owner t).data i) l.readAt (l.size remote).toNat 0
  | none => []

/-- What the client gets of it. -/
def received : Bytes := (l.served remote).take l.arrives

end Link

/-! ### The client -/

/-- `_recvfile_udt`. Opening the local file truncates it; `recvfile` of nothing looks at the connection
and not at the stream. -/
def recvfileUdt (l : Link T) (remote dst : Bytes) (d : Disk) : Int × Disk :=
  if l.fails .getaddrinfo then (-1, d)
  else if l.fails .connect then (-1, d)
  else if l.fails .sendKind then (-1, d)
  else if l.fails .sendLen then (-1, d)
  else if l.fails .sendName then (-1, d)
  else if l.fails .recvSize then (-1, d)
  else if l.size remote < 0 then (-1, d)
  else
    match d.creat dst with
    | none => if l.size remote = 0 then (l.leftover, d) else (-1, d)
    | some (i, d) =>
        let d := d.setData i (l.received remote)
        if (l.received remote).length < l.size remote then (-1, d) else (l.leftover, d)

def ffsRecvfile (l : Link T) (remote dst : Bytes) (d : Disk) : Int × Disk :=
  let res := recvfileUdt l remote dst d
  if -1 = res.1 then (-1, res.2) else (0, res.2)

/-- `fusion_getattr` on a node with the address `myaddr`. -/
def fusionGetattr (l : Link T) (r : Root) (myaddr junk : Bytes) (z : Zht) (path : Bytes)
    (d : Disk) : Int × Disk :=
  let fpath := r.fullpath path
  let d := match z path with
    | none =>
        match z (path ++ [slash]) with
        | none => d
        | some _ => d.mkdir fpath
    | some val =>
        let res := realIp junk val
        if d.access fpath = false ∨ (path ≠ [slash] ∧ res.2 ≠ myaddr) then
          (ffsRecvfile l (remotePath fpath res.1) fpath d).2
        else d
  (statFile d fpath, d)

/-! ### Opening and writing a file -/

section Disk

variable {d d' : Disk} {dst data : Bytes} {i : Nat}

theorem resolve_newEntry {real : Bytes} (hreal : ∀ t, d.entry real ≠ some (.link t)) (fuel : Nat)
    (x : Bytes) (h : d.resolve fuel x = some real) :
    (d.setEntry real (some (.file i))).resolve fuel x = some real := by
  induction fuel generalizing x with
  | zero => cases h
  | succ fuel ih =>
      rw [Disk.resolve] at h ⊢
      by_cases hx : x = real
      · subst hx
        simp [Disk.setEntry]
      · have hentry : (d.setEntry real (some (.file i))).entry x = d.entry x := by
          simp [Disk.setEntry, hx]
        rw [hentry]
        cases he : d.entry x with
        | none =>
            simp only [he, Option.some.injEq] at h
            exact absurd h hx
        | some e =>
            cases e with
            | file j =>
                simp only [he, Option.some.injEq] at h
                exact absurd h hx
            | link t =>
                simp only [he] at h
                exact ih t h

theorem entry_ne_link_of_resolve {real x t : Bytes} {fuel : Nat} (h : d.resolve fuel x = some real) :
    d.entry real ≠ some (.link t) := by
  induction fuel generalizing x with
  | zero => cases h
  | succ fuel ih =>
      rw [Disk.resolve] at h
      split at h
      · exact ih h
      · next hne =>
          obtain rfl := Option.some.inj h
          exact fun heq => hne t heq

theorem openIno_of_creat (h : d.creat dst = some (i, d')) : d'.openIno dst = some i := by
  simp only [Disk.creat, Option.bind_eq_bind, Option.bind_eq_some_iff] at h
  obtain ⟨real, hreal, h⟩ := h
  have hlink := fun t => entry_ne_link_of_resolve (t := t) hreal
  cases he : d.entry real with
  | some e =>
      cases e with
      | file j =>
          simp only [he, Option.some.injEq, Prod.mk.injEq] at h
          obtain ⟨rfl, rfl⟩ := h
          have hfile : (d.setData j []).openIno dst = d.openIno dst := rfl
          rw [hfile, Disk.openIno, hreal]
          simp only [Option.bind_eq_bind, Option.bind_some, he]
      | link t => exact absurd he (hlink t)
  | none =>
      by_cases hdir : d.dir real
      · simp [he, hdir] at h
      · simp only [he, if_neg hdir, Option.some.injEq, Prod.mk.injEq] at h
        obtain ⟨rfl, rfl⟩ := h
        have hnew := resolve_newEntry (i := d.nextIno) hlink maxSymlinks dst hreal
        change ((d.setEntry real (some (.file d.nextIno))).resolve maxSymlinks dst).bind _ = _
        simp only [hnew, Option.bind_some]
        simp [Disk.newFile, Disk.setEntry, Disk.setData]

theorem openIno_of_creat_eq_none (h : d.creat dst = none) : d.openIno dst = none := by
  rw [Disk.creat] at h
  rw [Disk.openIno]
  cases hreal : d.resolve maxSymlinks dst with
  | none => rfl
  | some real =>
      simp only [hreal, Option.bind_eq_bind, Option.bind_some] at h ⊢
      split at h
      · cases h
      · rfl

theorem content_of_creat (h : d.creat dst = some (i, d')) :
    content (d'.setData i data) dst = some data := by
  have hopen : (d'.setData i data).openIno dst = d'.openIno dst := rfl
  rw [content, hopen, openIno_of_creat h]
  simp [Disk.setData]

theorem lstat_of_openIno (h : d.openIno dst = some i) : d.lstat dst = true := by
  rw [Disk.lstat]
  cases he : d.entry dst with
  | some e => simp
  | none =>
      have hself : d.resolve maxSymlinks dst = some dst := by
        rw [maxSymlinks, Disk.resolve]
        simp only [he]
      rw [Disk.openIno, hself] at h
      simp [he] at h

end Disk

/-! ### What the daemon reads -/

/-- The pieces make up a text as long as they were asked for if and only if each of them is its piece
of the text. -/
theorem sendfile_eq_iff {data : T → Bytes} {readAt : Nat → T} {tosend offset : Nat} {bs : Bytes}
    (hlen : bs.length = tosend) :
    sendfile data readAt tosend offset = bs ↔
      ∀ k < tosend, (data (readAt (offset + k)))[offset + k]? = bs[k]? := by
  induction tosend generalizing offset bs with
  | zero =>
      rw [List.length_eq_zero_iff.mp hlen]
      simp [sendfile]
  | succ tosend ih =>
      cases bs with
      | nil => cases hlen
      | cons b bs =>
          have hrest : bs.length = tosend := by simpa using hlen
          rw [sendfile]
          cases hb : (data (readAt offset))[offset]? with
          | none =>
              constructor
              · intro h
                cases h
              · intro h
                have hzero := h 0 (by omega)
                rw [Nat.add_zero, hb] at hzero
                cases hzero
          | some byte =>
              rw [List.cons.injEq, ih hrest]
              constructor
              · rintro ⟨rfl, h⟩ k hk
                cases k with
                | zero => rwa [Nat.add_zero]
                | succ k =>
                    have hstep := h k (by omega)
                    rwa [Nat.add_right_comm] at hstep
              · intro h
                constructor
                · have hzero := h 0 (by omega)
                  rw [Nat.add_zero, hb] at hzero
                  exact Option.some.inj hzero
                · intro k hk
                  have hstep := h (k + 1) (by omega)
                  rwa [Nat.add_comm k 1, ← Nat.add_assoc, Nat.add_comm 1 k] at hstep

theorem length_sendfile_le (data : T → Bytes) (readAt : Nat → T) (tosend offset : Nat) :
    (sendfile data readAt tosend offset).length ≤ tosend := by
  induction tosend generalizing offset with
  | zero => rfl
  | succ tosend ih =>
      rw [sendfile]
      cases (data (readAt offset))[offset]? with
      | none => exact Nat.zero_le _
      | some byte => exact Nat.succ_le_succ (ih (offset + 1))

/-! ### What a transfer may do -/

/-- A file has the contents that the owner's has at some moment of the call. -/
def CurrentCopy (l : Link T) (path dst : Bytes) (d : Disk) : Prop :=
  ∃ t bs, content (l.owner t) path = some bs ∧ content d dst = some bs

structure RecvfileSafe (l : Link T) (remote dst : Bytes) (d : Disk) : Prop where
  failed : (ffsRecvfile l remote dst d).1 = -1 →
    content (ffsRecvfile l remote dst d).2 dst = content d dst
  done : (ffsRecvfile l remote dst d).1 = 0 →
    CurrentCopy l remote dst (ffsRecvfile l remote dst d).2

def GetattrSafe (l : Link T) (r : Root) (myaddr junk : Bytes) (z : Zht) (path : Bytes)
    (d : Disk) : Prop :=
  (fusionGetattr l r myaddr junk z path d).1 = 0 →
    CurrentCopy l (r.fullpath path) (r.fullpath path) (fusionGetattr l r myaddr junk z path d).2

/-! ### When it does -/

/-- No call fails up to the answer of the daemon, and the answer is a size. -/
def Link.Answered (l : Link T) (remote : Bytes) : Prop :=
  (∀ call, l.fails call = false) ∧ 0 ≤ l.size remote

/-- As many bytes as the answer says get to the client. -/
def Link.Arrives (l : Link T) (remote : Bytes) : Prop :=
  l.size remote ≤ (l.received remote).length

/-- The bytes the daemon reads, each at its moment, are all the bytes that one moment has. -/
def Link.OneMoment (l : Link T) (remote path : Bytes) : Prop :=
  ∃ t bs, content (l.owner t) path = some bs ∧ (bs.length : Int) = l.size remote ∧
    ∀ k < bs.length, l.reads remote k = bs[k]?

/-- The failure comes before the local file is opened, or the file already had what arrived; and what
is read for a success is what one moment has. -/
structure KeepsFile (l : Link T) (remote dst : Bytes) (d : Disk) : Prop where
  unopened : l.Answered remote → d.creat dst = none → l.size remote = 0 → l.leftover = -1
  failed : l.Answered remote → d.creat dst ≠ none → ¬ (l.Arrives remote ∧ l.leftover ≠ -1) →
    content d dst = some (l.received remote)
  done : l.Answered remote → d.creat dst ≠ none → l.Arrives remote → l.leftover ≠ -1 →
    l.OneMoment remote remote

/-- Without a transfer there is nothing at the local path, or already a current copy; a transfer that
is cut off leaves one by chance; and a whole one has read what one moment has. -/
structure KeepsCopy (l : Link T) (remote fpath : Bytes) (d : Disk) : Prop where
  unopened : ¬ (l.Answered remote ∧ d.creat fpath ≠ none) → d.lstat fpath = true →
    CurrentCopy l fpath fpath d
  cut : l.Answered remote → d.creat fpath ≠ none → ¬ l.Arrives remote →
    ∃ t, content (l.owner t) fpath = some (l.received remote)
  whole : l.Answered remote → d.creat fpath ≠ none → l.Arrives remote → l.OneMoment remote fpath

section Outcome

variable {l : Link T} {remote dst path : Bytes} {d d' : Disk} {i : Nat}

theorem length_received (hans : l.Answered remote) (harr : l.Arrives remote) :
    l.received remote = l.served remote ∧ ((l.served remote).length : Int) = l.size remote := by
  have hle : (l.served remote).length ≤ (l.size remote).toNat := by
    unfold Link.served
    cases (l.owner l.opened).openIno remote with
    | none => exact Nat.zero_le _
    | some i => exact length_sendfile_le _ _ _ _
  have hnonneg := hans.2
  have harrives : l.size remote ≤ (l.received remote).length := harr
  have htake : (l.received remote).length = min l.arrives (l.served remote).length :=
    List.length_take
  constructor
  · apply List.take_of_length_le
    omega
  · omega

/-- A whole transfer brings the contents of one moment exactly if the daemon reads them. -/
theorem oneMoment_iff (hans : l.Answered remote) (harr : l.Arrives remote) :
    l.OneMoment remote path ↔ ∃ t, content (l.owner t) path = some (l.received remote) := by
  obtain ⟨hrecv, hlen⟩ := length_received hans harr
  rw [hrecv]
  cases hopen : (l.owner l.opened).openIno remote with
  | none =>
      have hneg : l.size remote = -1 := by rw [Link.size, hopen]
      have hnonneg := hans.2
      omega
  | some i =>
      have hserved : l.served remote = sendfile (fun t => (l.owner t).data i) l.readAt
          (l.size remote).toNat 0 := by
        rw [Link.served, hopen]
      have hreads : ∀ k, l.reads remote k = ((l.owner (l.readAt k)).data i)[k]? := by
        intro k
        rw [Link.reads, hopen, Option.bind_some]
      constructor
      · rintro ⟨t, bs, hbs, hsize, hpieces⟩
        have heq : sendfile (fun t => (l.owner t).data i) l.readAt (l.size remote).toNat 0 = bs := by
          apply (sendfile_eq_iff (by omega)).mpr
          intro k hk
          rw [Nat.zero_add, ← hreads k]
          exact hpieces k (by omega)
        exact ⟨t, by rw [hserved, heq, hbs]⟩
      · rintro ⟨t, ht⟩
        refine ⟨t, _, ht, hlen, fun k hk => ?_⟩
        have hall := (sendfile_eq_iff (by omega)).mp hserved.symm k (by omega)
        rwa [Nat.zero_add, ← hreads k] at hall

theorem recvfileUdt_of_not_answered (h : ¬ l.Answered remote) :
    recvfileUdt l remote dst d = (-1, d) := by
  unfold recvfileUdt
  by_cases hfails : ∃ call, l.fails call = true
  · obtain ⟨call, hcall⟩ := hfails
    cases call <;> simp [hcall]
  · have hnone : ∀ call, l.fails call = false := by
      intro call
      by_contra hcall
      exact hfails ⟨call, by simpa using hcall⟩
    have hsize : l.size remote < 0 := by
      by_contra hsize
      exact h ⟨hnone, by omega⟩
    simp [hnone, hsize]

theorem recvfileUdt_of_answered (h : l.Answered remote) :
    recvfileUdt l remote dst d =
      match d.creat dst with
      | none => if l.size remote = 0 then (l.leftover, d) else (-1, d)
      | some (i, d') =>
          if (l.received remote).length < l.size remote then (-1, d'.setData i (l.received remote))
          else (l.leftover, d'.setData i (l.received remote)) := by
  have hsize : ¬ l.size remote < 0 := by
    have hnonneg := h.2
    omega
  simp [recvfileUdt, h.1, hsize]

theorem ffsRecvfile_of_not_answered (h : ¬ l.Answered remote) :
    ffsRecvfile l remote dst d = (-1, d) := by
  rw [ffsRecvfile, recvfileUdt_of_not_answered h]
  rfl

theorem ffsRecvfile_of_unopened (h : l.Answered remote) (hcreat : d.creat dst = none) :
    ffsRecvfile l remote dst d = (if l.size remote = 0 ∧ l.leftover ≠ -1 then 0 else -1, d) := by
  rw [ffsRecvfile, recvfileUdt_of_answered h, hcreat]
  by_cases hsize : l.size remote = 0
  · by_cases hleft : l.leftover = -1
    · simp [hsize, hleft]
    · simp [hsize, hleft, Ne.symm hleft]
  · simp [hsize]

theorem ffsRecvfile_of_opened (h : l.Answered remote) (hcreat : d.creat dst = some (i, d')) :
    (ffsRecvfile l remote dst d).2 = d'.setData i (l.received remote) ∧
      ((ffsRecvfile l remote dst d).1 = 0 ∧ l.Arrives remote ∧ l.leftover ≠ -1 ∨
        (ffsRecvfile l remote dst d).1 = -1 ∧ ¬ (l.Arrives remote ∧ l.leftover ≠ -1)) := by
  rw [ffsRecvfile, recvfileUdt_of_answered h, hcreat]
  by_cases harr : l.Arrives remote
  · have hge : ¬ (l.received remote).length < l.size remote := Int.not_lt.mpr harr
    by_cases hleft : l.leftover = -1
    · simp [hge, hleft, harr]
    · simp [hge, hleft, Ne.symm hleft, harr]
  · have hlt : (l.received remote).length < l.size remote := Int.not_le.mp harr
    simp [hlt, harr]

theorem content_of_opened (h : l.Answered remote) (hcreat : d.creat dst = some (i, d')) :
    content (ffsRecvfile l remote dst d).2 dst = some (l.received remote) := by
  rw [(ffsRecvfile_of_opened h hcreat).1, content_of_creat hcreat]

theorem currentCopy_iff {bytes : Bytes} (hnow : content d dst = some bytes) :
    CurrentCopy l path dst d ↔ ∃ t, content (l.owner t) path = some bytes := by
  constructor
  · rintro ⟨t, bs, ht, hbs⟩
    exact ⟨t, by rw [ht, ← hbs, hnow]⟩
  · rintro ⟨t, ht⟩
    exact ⟨t, _, ht, hnow⟩

theorem recvfileSafe_of_not_answered (h : ¬ l.Answered remote) : RecvfileSafe l remote dst d := by
  have hres : ffsRecvfile l remote dst d = (-1, d) := ffsRecvfile_of_not_answered h
  constructor
  · intro _
    rw [hres]
  · intro hzero
    rw [hres] at hzero
    cases hzero

/-- Where the local file cannot be opened, an empty file must not count as a success. -/
theorem recvfileSafe_iff_of_unopened (hans : l.Answered remote) (hcreat : d.creat dst = none) :
    RecvfileSafe l remote dst d ↔ (l.size remote = 0 → l.leftover = -1) := by
  have hnone : content d dst = none := by
    rw [content, openIno_of_creat_eq_none hcreat]
    rfl
  have hres := ffsRecvfile_of_unopened hans hcreat
  constructor
  · intro h hsize
    by_contra hleft
    -- success, and no local file
    rw [if_pos ⟨hsize, hleft⟩] at hres
    obtain ⟨t, bs, -, hbs⟩ := h.done (by rw [hres])
    rw [hres, hnone] at hbs
    cases hbs
  · intro h
    have hfail : ¬ (l.size remote = 0 ∧ l.leftover ≠ -1) := fun hboth => hboth.2 (h hboth.1)
    rw [if_neg hfail] at hres
    constructor
    · intro _
      rw [hres]
    · intro hzero
      rw [hres] at hzero
      cases hzero

/-- Where it can, what arrives is in it, whatever the call returns. -/
theorem recvfileSafe_iff_of_opened (hans : l.Answered remote) (hcreat : d.creat dst = some (i, d')) :
    RecvfileSafe l remote dst d ↔
      (¬ (l.Arrives remote ∧ l.leftover ≠ -1) → content d dst = some (l.received remote)) ∧
        (l.Arrives remote → l.leftover ≠ -1 → l.OneMoment remote remote) := by
  have hnow := content_of_opened hans hcreat
  have hret := (ffsRecvfile_of_opened hans hcreat).2
  constructor
  · intro h
    refine ⟨fun hcut => ?_, fun harr hleft => ?_⟩
    · rcases hret with ⟨-, hboth⟩ | ⟨hret, -⟩
      · exact absurd hboth hcut
      · rw [← h.failed hret, hnow]
    · rcases hret with ⟨hret, -⟩ | ⟨-, hnot⟩
      · exact (oneMoment_iff hans harr).mpr ((currentCopy_iff hnow).mp (h.done hret))
      · exact absurd ⟨harr, hleft⟩ hnot
  · rintro ⟨hfailed, hdone⟩
    rcases hret with ⟨hret, harr, hleft⟩ | ⟨hret, hcut⟩
    · constructor
      · intro hfail
        rw [hret] at hfail
        cases hfail
      · intro _
        exact (currentCopy_iff hnow).mpr ((oneMoment_iff hans harr).mp (hdone harr hleft))
    · constructor
      · intro _
        rw [hnow, hfailed hcut]
      · intro hzero
        rw [hret] at hzero
        cases hzero

theorem recvfileSafe_iff : RecvfileSafe l remote dst d ↔ KeepsFile l remote dst d := by
  by_cases hans : l.Answered remote
  · cases hcreat : d.creat dst with
    | none =>
        rw [recvfileSafe_iff_of_unopened hans hcreat]
        constructor
        · intro h
          exact ⟨fun _ _ => h, fun _ hopen => absurd hcreat hopen, fun _ hopen => absurd hcreat hopen⟩
        · intro h
          exact h.unopened hans hcreat
    | some res =>
        have hopen : d.creat dst ≠ none := by simp [hcreat]
        rw [recvfileSafe_iff_of_opened hans hcreat]
        constructor
        · rintro ⟨hfailed, hdone⟩
          exact ⟨fun _ hnot => absurd hnot hopen, fun _ _ => hfailed, fun _ _ => hdone⟩
        · intro h
          exact ⟨h.failed hans hopen, h.done hans hopen⟩
  · constructor
    · intro _
      exact ⟨fun h => absurd h hans, fun h => absurd h hans, fun h => absurd h hans⟩
    · intro _
      exact recvfileSafe_of_not_answered hans

/-- What `fusion_getattr` does for a file of another node: it transfers, and looks at what is there. -/
theorem fusionGetattr_of_remote {r : Root} {myaddr junk val : Bytes} {z : Zht} {p : FilePath}
    (hval : z p.bytes = some val) (hother : (realIp junk val).2 ≠ myaddr) :
    fusionGetattr l r myaddr junk z p.bytes d =
      (statFile (ffsRecvfile l (remotePath (r.fullpath p.bytes) (realIp junk val).1)
          (r.fullpath p.bytes) d).2 (r.fullpath p.bytes),
        (ffsRecvfile l (remotePath (r.fullpath p.bytes) (realIp junk val).1)
          (r.fullpath p.bytes) d).2) := by
  unfold fusionGetattr
  simp only [hval]
  rw [if_pos (Or.inr ⟨p.ne_of_getLast?_slash rfl, hother⟩)]

theorem getattrSafe_iff {r : Root} {myaddr junk val : Bytes} {z : Zht} {p : FilePath}
    (hval : z p.bytes = some val) (hother : (realIp junk val).2 ≠ myaddr) :
    GetattrSafe l r myaddr junk z p.bytes d ↔
      KeepsCopy l (remotePath (r.fullpath p.bytes) (realIp junk val).1) (r.fullpath p.bytes) d := by
  set fpath := r.fullpath p.bytes
  set remote := remotePath fpath (realIp junk val).1
  rw [GetattrSafe, fusionGetattr_of_remote hval hother, statFile_eq_zero_iff]
  change ((ffsRecvfile l remote fpath d).2.lstat fpath = true →
    CurrentCopy l fpath fpath (ffsRecvfile l remote fpath d).2) ↔ _
  by_cases hopened : l.Answered remote ∧ d.creat fpath ≠ none
  · obtain ⟨hans, hopen⟩ := hopened
    obtain ⟨⟨i, d'⟩, hcreat⟩ := Option.ne_none_iff_exists'.mp hopen
    have hthere : (ffsRecvfile l remote fpath d).2.lstat fpath = true := by
      rw [(ffsRecvfile_of_opened hans hcreat).1]
      have hlstat : d'.lstat fpath = true := lstat_of_openIno (openIno_of_creat hcreat)
      exact hlstat
    rw [currentCopy_iff (content_of_opened hans hcreat)]
    constructor
    · intro h
      exact ⟨fun hnot => absurd ⟨hans, hopen⟩ hnot, fun _ _ _ => h hthere,
        fun _ _ harr => (oneMoment_iff hans harr).mpr (h hthere)⟩
    · intro h _
      by_cases harr : l.Arrives remote
      · exact (oneMoment_iff hans harr).mp (h.whole hans hopen harr)
      · exact h.cut hans hopen harr
  · have hdisk : (ffsRecvfile l remote fpath d).2 = d := by
      by_cases hans : l.Answered remote
      · have hcreat : d.creat fpath = none := by
          by_contra hopen
          exact hopened ⟨hans, hopen⟩
        rw [ffsRecvfile_of_unopened hans hcreat]
      · rw [ffsRecvfile_of_not_answered hans]
    rw [hdisk]
    constructor
    · intro h
      exact ⟨fun _ => h, fun hans hopen => absurd ⟨hans, hopen⟩ hopened,
        fun hans hopen => absurd ⟨hans, hopen⟩ hopened⟩
    · intro h
      exact h.unopened hopened

end Outcome

/-- Transfers leave the file that was there, or bring a current one, in just these cases. -/
theorem transfer_iff (l : Link T) (remote dst : Bytes) (d : Disk) (r : Root) (myaddr junk val : Bytes)
    (z : Zht) (p : FilePath) (hval : z p.bytes = some val) (hother : (realIp junk val).2 ≠ myaddr) :
    (RecvfileSafe l remote dst d ↔ KeepsFile l remote dst d) ∧
      (GetattrSafe l r myaddr junk z p.bytes d ↔
        KeepsCopy l (remotePath (r.fullpath p.bytes) (realIp junk val).1) (r.fullpath p.bytes) d) :=
  ⟨recvfileSafe_iff, getattrSafe_iff hval hother⟩

/-! ### Transfers of the cluster -/

section Quiet

variable {Node : Type} [DecidableEq Node] {net : Net Node} {n m : Node} {c : Cluster Node}
  {l : Link T} {addr remote dst : Bytes}

/-- Nothing fails, and the file of the owner stays as it is. -/
structure Quiet (l : Link T) (d : Disk) (remote : Bytes) : Prop where
  fails : ∀ call, l.fails call = false
  owner : ∀ t, l.owner t = d
  arrives : ∀ i, d.openIno remote = some i → (d.data i).length ≤ l.arrives

theorem Quiet.received {d : Disk} (h : Quiet l d remote) {i : Nat}
    (hopen : d.openIno remote = some i) :
    l.received remote = d.data i ∧ l.size remote = (d.data i).length := by
  have hsize : l.size remote = (d.data i).length := by
    rw [Link.size, h.owner l.opened, hopen, h.owner l.sized]
  have hserved : l.served remote = d.data i := by
    rw [Link.served, h.owner l.opened, hopen, hsize]
    apply (sendfile_eq_iff rfl).mpr
    intro k _
    rw [Nat.zero_add, h.owner]
  rw [Link.received, hserved]
  exact ⟨List.take_of_length_le (h.arrives i hopen), hsize⟩

theorem Quiet.ffsRecvfile (h : Quiet l (c.disk m) remote) (hhost : net.host addr = some m) :
    (ffsRecvfile l remote dst (c.disk n)).2
      = (FusionFS.ffsRecvfile net n addr remote dst c).disk n := by
  simp only [FusionFS.ffsRecvfile, hhost]
  cases hopen : (c.disk m).openIno remote with
  | none =>
      have hsize : l.size remote = -1 := by rw [Link.size, h.owner, hopen]
      have hans : ¬ l.Answered remote := by
        rintro ⟨-, hnonneg⟩
        omega
      rw [ffsRecvfile_of_not_answered hans]
  | some i =>
      obtain ⟨hrecv, hsize⟩ := h.received hopen
      have hans : l.Answered remote := ⟨h.fails, by omega⟩
      dsimp only
      rw [Cluster.disk_setDisk_self, Disk.store]
      cases hcreat : (c.disk n).creat dst with
      | none => rw [ffsRecvfile_of_unopened hans hcreat]
      | some res => rw [(ffsRecvfile_of_opened hans hcreat).1, hrecv]

end Quiet

/-! ### A connection that breaks -/

/-- A disk with one file. -/
def oneFile (path data : Bytes) : Disk where
  entry x := if x = path then some (.file 0) else none
  dir _ := false
  data _ := data
  nextIno := 1

/-- The owner has four bytes, of which so many arrive. -/
def fourBytes (arrives : Nat) : Link Unit where
  fails _ := false
  owner _ := oneFile (cstr "/mnt/ssd/f") (cstr "new!")
  opened := ()
  sized := ()
  readAt _ := ()
  arrives := arrives
  leftover := 0

theorem transfer_iff_whole :
    (RecvfileSafe (fourBytes 4) (cstr "/mnt/ssd/f") (cstr "/mnt/ssd/f")
        (oneFile (cstr "/mnt/ssd/f") (cstr "old")) ↔
      KeepsFile (fourBytes 4) (cstr "/mnt/ssd/f") (cstr "/mnt/ssd/f")
        (oneFile (cstr "/mnt/ssd/f") (cstr "old"))) ∧
    (GetattrSafe (fourBytes 4) twoNodes.root (cstr "10.0.0.1") []
        (fun _ => some (cstr "10.0.0.2")) (cstr "/f") (oneFile (cstr "/mnt/ssd/f") (cstr "old")) ↔
      KeepsCopy (fourBytes 4) (cstr "/mnt/ssd/f") (cstr "/mnt/ssd/f")
        (oneFile (cstr "/mnt/ssd/f") (cstr "old"))) :=
  transfer_iff (fourBytes 4) (cstr "/mnt/ssd/f") (cstr "/mnt/ssd/f") _ twoNodes.root
    (cstr "10.0.0.1") [] (cstr "10.0.0.2") _ (filePath "/f" (by decide)) rfl (by decide)

/-- The connection ends after one byte: the old file is gone, and `fusion_getattr` finds the rest. -/
theorem not_transfer :
    ¬ RecvfileSafe (fourBytes 1) (cstr "/mnt/ssd/f") (cstr "/mnt/ssd/f")
        (oneFile (cstr "/mnt/ssd/f") (cstr "old")) ∧
      ¬ GetattrSafe (fourBytes 1) twoNodes.root (cstr "10.0.0.1") []
        (fun _ => some (cstr "10.0.0.2")) (cstr "/f") (oneFile (cstr "/mnt/ssd/f") (cstr "old")) := by
  constructor
  · intro h
    have hfailed := h.failed (by decide +kernel)
    revert hfailed
    decide +kernel
  · intro h
    obtain ⟨⟨⟩, bs, ht, hbs⟩ := h (by decide +kernel)
    have hcut : content (fusionGetattr (fourBytes 1) twoNodes.root (cstr "10.0.0.1") []
        (fun _ => some (cstr "10.0.0.2")) (cstr "/f")
        (oneFile (cstr "/mnt/ssd/f") (cstr "old"))).2 (cstr "/mnt/ssd/f") = some (cstr "n") := by
      decide +kernel
    have hnew : content ((fourBytes 1).owner ()) (cstr "/mnt/ssd/f") = some (cstr "new!") := by
      decide +kernel
    have hsame : some (cstr "n") = some (cstr "new!") := by
      rw [← hcut, ← hnew]
      exact hbs.trans ht.symm
    revert hsame
    decide

end FusionFS.Transfer
