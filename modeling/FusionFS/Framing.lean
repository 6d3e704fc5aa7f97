import FusionFS.TierPaths
import FusionFS.Lib.RawInt

/-!
# Requests between nodes

The client sends a kind, a length and a path, and for an upload a file; the daemon reads them back
with `recv`, which may return less than it was asked for. No send of the client depends on what it
receives, so all it sends is one stream.
-/

namespace FusionFS.Framing

open RawInt

inductive Kind where
  | download
  | upload
  | remove
  | mkdir
  deriving DecidableEq

/-- `is_recv` in `transfile`. -/
def Kind.code : Kind → Int
  | .download => 0
  | .upload => 1
  | .remove => 2
  | .mkdir => 3

/-- A path as the client passes it on. -/
structure Path where
  bytes : Bytes
  nul_notMem : (0 : UInt8) ∉ bytes
  short : bytes.length < pathMax

/-- The end of a file, where `tellg` finds it: -1 if the file could not be opened. -/
structure FileEnd where
  size : Int
  low : -1 ≤ size
  high : size < 2 ^ 63

/-- The file systems the two sides look at. `upload` is what the client's local file holds. -/
structure World where
  remote : Bytes → FileEnd
  unlinks : Bytes → Bool
  mkdirs : Bytes → Bool
  upload : Option Bytes
  fits : ∀ data, upload = some data → data.length < 2 ^ 63

/-- `size` in `_sendfile_udt`. -/
def World.uploadSize (w : World) : Int :=
  match w.upload with
  | some data => data.length
  | none => -1

/-- How many bytes each `recv` returns at most; it returns one at least. -/
structure Cuts where
  kind : Nat
  len : Nat
  path : Nat
  size : Nat
  reply : Nat

/-- What is in the variables that `recv` fills. -/
structure Junk where
  kind : Nat → UInt8
  len : Nat → UInt8
  file : Nat → UInt8
  size : Nat → UInt8
  reply : Nat → UInt8

/-! ### The two sides -/

inductive Party where
  | client
  | daemon
  deriving DecidableEq

inductive Message where
  | kind
  | len
  | path
  | size
  | file (bytes : Int)
  | status
  deriving DecidableEq

/-- What comes next, and who is to send it. -/
abbrev Turn := Party × Message

/-- `UDT::recv`: what it returns, and what is left. It waits for the first byte. -/
def recv (want : Int) (cut : Nat) (stream : Bytes) : Option (Bytes × Bytes) :=
  if want ≤ 0 then some ([], stream)
  else if stream = [] then none
  else some (stream.take (min want.toNat (max 1 cut)), stream.drop (min want.toNat (max 1 cut)))

/-- The first `n` bytes of a variable after `recv`. -/
def filled (n : Nat) (got : Bytes) (junk : Nat → UInt8) : Bytes :=
  (List.range n).map fun i => got[i]?.getD (junk i)

/-- The string in a buffer that has a zero byte at its end. -/
def stringIn (buf : Bytes) : Bytes := buf.takeWhile (· != 0)

/-- The file, and then its end, or neither. -/
def fileTurn (sender : Party) (size : Int) : List Turn :=
  if 0 < size then [(sender, .file size)] else []

def fileSize : Nat := 1024

/-- What the daemon did: the request it acted on, the indices of `file` it wrote, the turns it saw,
and what it sent. -/
structure Service where
  kind : Option Int
  path : Option Bytes
  indices : List Int
  turns : List Turn
  reply : Bytes

/-- The end of `transfile`, by the kind of request. -/
def serve (w : World) (cuts : Cuts) (junk : Junk) (kind : Int) (path up : Bytes) :
    List Turn × Bytes :=
  if kind = 1 then
    match recv 8 cuts.size up with
    | none => ([(.client, .size)], [])
    | some (got, _) =>
        let size := intOf (filled 8 got junk.size)
        ((.client, .size) :: (if size < 0 then [] else fileTurn .client size), [])
  else if kind = 0 then
    let size := (w.remote path).size
    ((.daemon, .size) :: fileTurn .daemon size, bytesOf 8 size)
  else if kind = 2 then
    -- on a failure the socket is closed before the status is sent
    if w.unlinks path then ([(.daemon, .status)], bytesOf 4 0) else ([], [])
  else
    ([(.daemon, .status)], bytesOf 4 (if w.mkdirs path then 0 else 1))

/-- The turns up to the path. -/
def pathTurns : List Turn := [(.client, .kind), (.client, .len), (.client, .path)]

/-- The path, at the start of each branch of `transfile`. A write outside of `file` ends what is known
of the daemon. -/
def getPath (w : World) (cuts : Cuts) (junk : Junk) (kind len : Int) (up : Bytes) : Service :=
  match recv len cuts.path up with
  | none => ⟨some kind, none, [], pathTurns, []⟩
  | some (got, up) =>
      let indices := (List.range got.length).map Int.ofNat ++ [len]
      if ∀ i ∈ indices, 0 ≤ i ∧ i < fileSize then
        let path := stringIn (filled len.toNat got junk.file)
        let rest := serve w cuts junk kind path up
        ⟨some kind, some path, indices, pathTurns ++ rest.1, rest.2⟩
      else ⟨some kind, none, indices, pathTurns, []⟩

/-- The length of the path, just before. -/
def getLen (w : World) (cuts : Cuts) (junk : Junk) (kind : Int) (up : Bytes) : Service :=
  match recv 4 cuts.len up with
  | none => ⟨some kind, none, [], [(.client, .kind), (.client, .len)], []⟩
  | some (got, up) => getPath w cuts junk kind (intOf (filled 4 got junk.len)) up

/-- `transfile` on the stream of a client. -/
def transfile (w : World) (cuts : Cuts) (junk : Junk) (up : Bytes) : Service :=
  match recv 4 cuts.kind up with
  | none => ⟨none, none, [], [(.client, .kind)], []⟩
  | some (got, up) =>
      let kind := intOf (filled 4 got junk.kind)
      if kind < 0 ∨ 3 < kind then ⟨some kind, none, [], [(.client, .kind)], []⟩
      else getLen w cuts junk kind up

/-- What the client sends behind the path. -/
def upload (w : World) (kind : Kind) : Bytes :=
  if kind = .upload then bytesOf 8 w.uploadSize ++ w.upload.getD [] else []

/-- What the client sends: `ffs_mkdir`, `ffs_rmfile`, `_recvfile_udt` and `_sendfile_udt`. -/
def request (w : World) (kind : Kind) (path : Bytes) : Bytes :=
  bytesOf 4 kind.code ++ (bytesOf 4 path.length ++ (path ++ upload w kind))

/-- What the client expects behind the path, with what it receives. -/
def expect (w : World) (cuts : Cuts) (junk : Junk) (kind : Kind) (reply : Bytes) : List Turn :=
  match kind with
  | .upload => (.client, .size) :: fileTurn .client w.uploadSize
  | .download =>
      match recv 8 cuts.reply reply with
      | none => [(.daemon, .size)]
      | some (got, _) =>
          let size := intOf (filled 8 got junk.reply)
          (.daemon, .size) :: (if size < 0 then [] else fileTurn .daemon size)
  | .remove | .mkdir => [(.daemon, .status)]

def clientTurns (w : World) (cuts : Cuts) (junk : Junk) (kind : Kind) (reply : Bytes) : List Turn :=
  pathTurns ++ expect w cuts junk kind reply

/-- The daemon acts on the request of the client, writes inside `file`, and both sides agree on who
sends next to the end, whatever their variables held before. -/
def Framed (w : World) (cuts : Cuts) (kind : Kind) (path : Path) : Prop :=
  ∀ junk, ∀ s, s = transfile w cuts junk (request w kind path.bytes) →
    s.kind = some kind.code ∧ s.path = some path.bytes ∧
      (∀ i ∈ s.indices, 0 ≤ i ∧ i < fileSize) ∧
      s.turns = clientTurns w cuts junk kind s.reply

/-- No `recv` returns less than it was asked for, but for the status, the path fits into `file`, and
a file that is to be removed can be removed. -/
structure WholeReads (w : World) (cuts : Cuts) (kind : Kind) (path : Path) : Prop where
  wholeKind : 4 ≤ cuts.kind
  wholeLen : 4 ≤ cuts.len
  wholePath : path.bytes.length ≤ max 1 cuts.path
  fits : path.bytes.length < fileSize
  wholeSize : kind = .upload → 8 ≤ cuts.size
  wholeReply : kind = .download → 8 ≤ cuts.reply
  unlinks : kind = .remove → w.unlinks path.bytes = true

/-! ### One `recv` -/

section Recv

variable {cut n : Nat} {bs rest got : Bytes} {junk : Nat → UInt8}

theorem recv_whole (hcut : bs.length ≤ max 1 cut) :
    recv bs.length cut (bs ++ rest) = some (bs, rest) := by
  unfold recv
  by_cases hnil : bs = []
  · subst hnil
    rfl
  · have hpos : 0 < bs.length := List.length_pos_iff.mpr hnil
    rw [if_neg (by omega), if_neg (by simp [hnil]), Int.toNat_natCast, Nat.min_eq_left hcut,
      List.take_left, List.drop_left]

theorem recv_short (hcut : max 1 cut < bs.length) :
    recv bs.length cut (bs ++ rest)
      = some (bs.take (max 1 cut), bs.drop (max 1 cut) ++ rest) := by
  have hnil : bs ≠ [] := by
    rintro rfl
    simp at hcut
  unfold recv
  rw [if_neg (by omega), if_neg (by simp [hnil]), Int.toNat_natCast,
    Nat.min_eq_right (Nat.le_of_lt hcut), List.take_append_of_le_length (Nat.le_of_lt hcut),
    List.drop_append_of_le_length (Nat.le_of_lt hcut)]

theorem filled_whole (hlen : got.length = n) : filled n got junk = got := by
  subst hlen
  apply List.ext_getElem
  · simp [filled]
  · intro i hi hi'
    simp [filled, hi']

theorem filled_short (hlen : got.length ≤ n) :
    filled (n + 1) got junk = filled n got junk ++ [junk n] := by
  have hout : got[n]? = none := List.getElem?_eq_none hlen
  rw [filled, List.range_succ, List.map_append, List.map_singleton, hout]
  rfl

theorem stringIn_of_notMem (h : (0 : UInt8) ∉ bs) : stringIn bs = bs := by
  rw [stringIn, List.takeWhile_eq_self_iff]
  intro b hb
  rw [bne_iff_ne]
  rintro rfl
  exact h hb

/-- The string ends where nothing was received over a zero byte. -/
theorem length_stringIn_filled_lt (hlen : got.length < n) :
    (stringIn (filled n got fun _ => 0)).length < n := by
  have hzero : (0 : UInt8) ∈ filled n got fun _ => 0 := by
    rw [filled, List.mem_map]
    exact ⟨got.length, List.mem_range.mpr hlen, by simp⟩
  have hle := (List.takeWhile_prefix (l := filled n got fun _ => 0) (· != 0)).length_le
  have hfull : (filled n got fun _ => 0).length = n := by simp [filled]
  rw [hfull] at hle
  apply Nat.lt_of_le_of_ne hle
  intro heq
  have hall : stringIn (filled n got fun _ => 0) = filled n got fun _ => 0 := by
    apply (List.takeWhile_prefix _).eq_of_length
    rw [hfull]
    exact heq
  have hne := List.mem_takeWhile_imp (hall ▸ hzero : (0 : UInt8) ∈ stringIn _)
  simp at hne

/-- An integer that is cut short reads as negative or as positive, by the byte that is missing. -/
theorem recv_cut {width : Nat} {value : Int} (hcut : cut < width) (hwidth : 1 < width) :
    ∃ got rest', recv width cut (bytesOf width value ++ rest) = some (got, rest') ∧
      intOf (filled width got fun _ => 0x80) < 0 ∧ 0 < intOf (filled width got fun _ => 0x7f) := by
  have hshort : max 1 cut < (bytesOf width value).length := by
    rw [length_bytesOf]
    omega
  have hrecv := @recv_short cut (bytesOf width value) rest hshort
  rw [length_bytesOf] at hrecv
  obtain ⟨m, rfl⟩ := Nat.exists_eq_add_of_lt hwidth
  have hlen : ((bytesOf (1 + m + 1) value).take (max 1 cut)).length ≤ 1 + m := by
    rw [List.length_take, length_bytesOf]
    omega
  refine ⟨_, _, hrecv, ?_, ?_⟩
  · rw [filled_short hlen]
    exact intOf_concat_neg _
  · rw [filled_short hlen]
    exact intOf_concat_pos _

theorem recv_bytesOf {width : Nat} {value : Int} (hcut : width ≤ cut)
    (hlow : -(256 ^ width : Nat) ≤ value * 2) (hhigh : value * 2 < (256 ^ width : Nat)) :
    recv width cut (bytesOf width value ++ rest) = some (bytesOf width value, rest) ∧
      ∀ junk : Nat → UInt8, intOf (filled width (bytesOf width value) junk) = value := by
  have hrecv := @recv_whole cut (bytesOf width value) rest (by rw [length_bytesOf]; omega)
  rw [length_bytesOf] at hrecv
  refine ⟨hrecv, fun junk => ?_⟩
  rw [filled_whole (length_bytesOf _ _), intOf_bytesOf hlow hhigh]

end Recv

/-! ### One request -/

section Request

variable {w : World} {cuts : Cuts} {junk : Junk} {kind : Kind} {code len : Int} {path up : Bytes}

theorem Kind.code_bounds (kind : Kind) : 0 ≤ kind.code ∧ kind.code ≤ 3 := by
  cases kind <;> decide

theorem World.uploadSize_bounds (w : World) : -1 ≤ w.uploadSize ∧ w.uploadSize < 2 ^ 63 := by
  unfold World.uploadSize
  cases h : w.upload with
  | none => decide
  | some data =>
      have hfits := w.fits data h
      dsimp only
      omega

theorem transfile_whole (hcut : 4 ≤ cuts.kind) :
    transfile w cuts junk (bytesOf 4 kind.code ++ up) = getLen w cuts junk kind.code up := by
  obtain ⟨hlow, hhigh⟩ := kind.code_bounds
  obtain ⟨hrecv, hval⟩ := @recv_bytesOf cuts.kind up 4 kind.code hcut (by omega) (by omega)
  rw [transfile]
  simp only [Nat.cast_ofNat] at hrecv
  rw [hrecv]
  simp only [hval]
  rw [if_neg (by omega)]

theorem getLen_whole (hcut : 4 ≤ cuts.len) (hpath : path.length < pathMax) :
    getLen w cuts junk code (bytesOf 4 path.length ++ up)
      = getPath w cuts junk code path.length up := by
  unfold pathMax at hpath
  obtain ⟨hrecv, hval⟩ := @recv_bytesOf cuts.len up 4 path.length hcut (by omega) (by omega)
  rw [getLen]
  simp only [Nat.cast_ofNat] at hrecv
  rw [hrecv]
  simp only [hval]

theorem inFile_iff (n : Nat) :
    (∀ i ∈ (List.range n).map Int.ofNat ++ [(n : Int)], 0 ≤ i ∧ i < fileSize) ↔ n < fileSize := by
  constructor
  · intro h
    have hlast := h n (by simp)
    omega
  · intro h i hi
    rw [List.mem_append, List.mem_map, List.mem_singleton] at hi
    rcases hi with ⟨k, hk, rfl⟩ | rfl
    · rw [List.mem_range] at hk
      change 0 ≤ (k : Int) ∧ (k : Int) < fileSize
      omega
    · omega

theorem getPath_whole (hnul : (0 : UInt8) ∉ path) (hcut : path.length ≤ max 1 cuts.path)
    (hfits : path.length < fileSize) :
    getPath w cuts junk code path.length (path ++ up)
      = ⟨some code, some path, (List.range path.length).map Int.ofNat ++ [(path.length : Int)],
          pathTurns ++ (serve w cuts junk code path up).1, (serve w cuts junk code path up).2⟩ := by
  rw [getPath, recv_whole hcut]
  dsimp only
  rw [if_pos ((inFile_iff path.length).mpr hfits), Int.toNat_natCast, filled_whole rfl,
    stringIn_of_notMem hnul]

/-! ### What goes wrong otherwise -/

/-- The same byte in every variable. -/
def junkOf (b : UInt8) : Junk := ⟨fun _ => b, fun _ => b, fun _ => b, fun _ => b, fun _ => b⟩

theorem transfile_short (hcut : cuts.kind < 4) :
    ∃ k, (transfile w cuts (junkOf 0x80) (bytesOf 4 code ++ up)).kind = some k ∧ k < 0 := by
  obtain ⟨got, rest, hrecv, hneg, -⟩ := @recv_cut cuts.kind up 4 code hcut (by decide)
  simp only [Nat.cast_ofNat] at hrecv
  refine ⟨_, ?_, hneg⟩
  rw [transfile, hrecv]
  exact congrArg Service.kind (if_pos (Or.inl hneg))

/-- The zero byte goes in front of `file` at once. -/
theorem getPath_of_neg (hneg : len < 0) :
    getPath w cuts junk code len up = ⟨some code, none, [len], pathTurns, []⟩ := by
  have hnone : recv len cuts.path up = some ([], up) := if_pos (by omega)
  have hout : ¬ ∀ i ∈ (List.range ([] : Bytes).length).map Int.ofNat ++ [len],
      0 ≤ i ∧ i < fileSize := by
    intro h
    have hlast := h len (by simp)
    omega
  rw [getPath, hnone]
  exact if_neg hout

theorem getLen_short (hcut : cuts.len < 4) :
    ∃ i ∈ (getLen w cuts (junkOf 0x80) code (bytesOf 4 len ++ up)).indices, i < 0 := by
  obtain ⟨got, rest, hrecv, hneg, -⟩ := @recv_cut cuts.len up 4 len hcut (by decide)
  simp only [Nat.cast_ofNat] at hrecv
  rw [getLen, hrecv]
  change ∃ i ∈ (getPath w cuts (junkOf 0x80) code (intOf (filled 4 got fun _ => 0x80)) rest).indices,
    i < 0
  rw [getPath_of_neg hneg]
  exact ⟨_, List.mem_singleton_self _, hneg⟩

theorem getPath_short (hcut : max 1 cuts.path < path.length) :
    (getPath w cuts (junkOf 0) code path.length (path ++ up)).path ≠ some path := by
  rw [getPath, recv_short hcut]
  dsimp only
  split
  · intro heq
    have hlt : (stringIn (filled path.length (path.take (max 1 cuts.path)) fun _ => 0)).length
        < path.length := by
      apply length_stringIn_filled_lt
      rw [List.length_take]
      omega
    have hsame := congrArg List.length (Option.some.inj heq)
    rw [Int.toNat_natCast] at hsame
    change (stringIn (filled path.length _ fun _ => 0)).length = _ at hsame
    omega
  · intro heq
    cases heq

theorem getPath_overrun :
    (path.length : Int) ∈ (getPath w cuts junk code path.length (path ++ up)).indices := by
  have hrecv : ∃ got rest, recv path.length cuts.path (path ++ up) = some (got, rest) := by
    by_cases hcut : path.length ≤ max 1 cuts.path
    · exact ⟨_, _, recv_whole hcut⟩
    · exact ⟨_, _, recv_short (by omega)⟩
  obtain ⟨got, rest, hrecv⟩ := hrecv
  rw [getPath, hrecv]
  dsimp only
  split <;> simp

/-! ### The answer -/

/-- What the receiver of a size and its file sees. -/
def sizeTurns (sender : Party) (cut : Nat) (junk : Nat → UInt8) (stream : Bytes) : List Turn :=
  match recv 8 cut stream with
  | none => [(sender, .size)]
  | some (got, _) =>
      let size := intOf (filled 8 got junk)
      (sender, .size) :: (if size < 0 then [] else fileTurn sender size)

theorem fileTurn_of_neg {sender : Party} {size : Int} (h : -1 ≤ size) :
    (if size < 0 then [] else fileTurn sender size) = fileTurn sender size := by
  unfold fileTurn
  split
  · rw [if_neg (by omega)]
  · rfl

theorem fileTurn_ne {sender : Party} {size neg pos : Int} (hneg : neg < 0) (hpos : 0 < pos) :
    (if neg < 0 then [] else fileTurn sender neg) ≠ fileTurn sender size ∨
      (if pos < 0 then [] else fileTurn sender pos) ≠ fileTurn sender size := by
  rw [if_pos hneg, if_neg (by omega)]
  unfold fileTurn
  by_cases hsize : 0 < size
  · left
    rw [if_pos hsize]
    simp
  · right
    rw [if_pos hpos, if_neg hsize]
    simp

/-- The receiver of a size sees the turns of the sender if it reads the size whole. -/
theorem sizeTurns_iff {sender : Party} {cut : Nat} {size : Int} {rest : Bytes} (hlow : -1 ≤ size)
    (hhigh : size < 2 ^ 63) :
    (∀ junk, sizeTurns sender cut junk (bytesOf 8 size ++ rest)
      = (sender, .size) :: fileTurn sender size) ↔ 8 ≤ cut := by
  unfold sizeTurns
  constructor
  · intro h
    by_contra hcut
    obtain ⟨got, rest', hrecv, hneg, hpos⟩ := @recv_cut cut rest 8 size (by omega) (by decide)
    simp only [Nat.cast_ofNat] at hrecv
    rw [hrecv] at h
    rcases @fileTurn_ne sender size _ _ hneg hpos with hne | hne
    · exact hne (List.cons.inj (h fun _ => 0x80)).2
    · exact hne (List.cons.inj (h fun _ => 0x7f)).2
  · intro hcut junk
    obtain ⟨hrecv, hval⟩ := @recv_bytesOf cut rest 8 size hcut (by omega) (by omega)
    simp only [Nat.cast_ofNat] at hrecv
    rw [hrecv]
    dsimp only
    rw [hval, fileTurn_of_neg hlow]

/-- Behind the path, both sides see the same turns. -/
def Agrees (w : World) (cuts : Cuts) (kind : Kind) (path : Bytes) : Prop :=
  ∀ junk, (serve w cuts junk kind.code path (upload w kind)).1
    = expect w cuts junk kind (serve w cuts junk kind.code path (upload w kind)).2

theorem upload_agrees_iff : Agrees w cuts .upload path ↔ 8 ≤ cuts.size := by
  have hserve : ∀ junk, (serve w cuts junk Kind.upload.code path (upload w .upload)).1
      = sizeTurns .client cuts.size junk.size (bytesOf 8 w.uploadSize ++ w.upload.getD []) := by
    intro junk
    have hcode : Kind.upload.code = 1 := rfl
    have hsent : upload w .upload = bytesOf 8 w.uploadSize ++ w.upload.getD [] := if_pos rfl
    rw [serve, if_pos hcode, hsent, sizeTurns]
    cases recv 8 cuts.size (bytesOf 8 w.uploadSize ++ w.upload.getD []) <;> rfl
  obtain ⟨hlow, hhigh⟩ := w.uploadSize_bounds
  rw [← @sizeTurns_iff .client cuts.size w.uploadSize (w.upload.getD []) hlow hhigh]
  constructor
  · intro h junk
    exact (hserve { junkOf 0 with size := junk }).symm.trans (h _)
  · intro h junk
    exact (hserve junk).trans (h junk.size)

theorem download_agrees_iff : Agrees w cuts .download path ↔ 8 ≤ cuts.reply := by
  have hexpect : ∀ junk, expect w cuts junk .download
      (serve w cuts junk Kind.download.code path (upload w .download)).2
      = sizeTurns .daemon cuts.reply junk.reply (bytesOf 8 (w.remote path).size ++ []) := by
    intro junk
    rw [List.append_nil]
    rfl
  rw [← @sizeTurns_iff .daemon cuts.reply (w.remote path).size [] (w.remote path).low
    (w.remote path).high]
  constructor
  · intro h junk
    exact (hexpect { junkOf 0 with reply := junk }).symm.trans (h _).symm
  · intro h junk
    exact ((hexpect junk).trans (h junk.reply)).symm

/-- The daemon closes the socket of a failed removal before it sends the status. -/
theorem remove_agrees_iff : Agrees w cuts .remove path ↔ w.unlinks path = true := by
  have hserve : ∀ junk, (serve w cuts junk Kind.remove.code path (upload w .remove)).1
      = if w.unlinks path then [(.daemon, .status)] else [] := by
    intro junk
    change (if w.unlinks path then ([(Party.daemon, Message.status)], bytesOf 4 0) else ([], [])).1 = _
    split <;> rfl
  constructor
  · intro h
    have hturns := (hserve (junkOf 0)).symm.trans (h (junkOf 0))
    by_contra hfail
    rw [if_neg hfail] at hturns
    cases hturns
  · intro hdone junk
    rw [hserve, if_pos hdone]
    rfl

theorem mkdir_agrees : Agrees w cuts .mkdir path := fun _ => rfl

theorem agrees_iff : Agrees w cuts kind path ↔
    (kind = .upload → 8 ≤ cuts.size) ∧ (kind = .download → 8 ≤ cuts.reply) ∧
      (kind = .remove → w.unlinks path = true) := by
  cases kind with
  | download => simpa using download_agrees_iff
  | upload => simpa using upload_agrees_iff
  | remove => simpa using remove_agrees_iff
  | mkdir => simpa using mkdir_agrees

theorem transfile_request (hnul : (0 : UInt8) ∉ path) (hkind : 4 ≤ cuts.kind) (hlen : 4 ≤ cuts.len)
    (hcut : path.length ≤ max 1 cuts.path) (hfits : path.length < fileSize) :
    transfile w cuts junk (request w kind path) =
      ⟨some kind.code, some path, (List.range path.length).map Int.ofNat ++ [(path.length : Int)],
        pathTurns ++ (serve w cuts junk kind.code path (upload w kind)).1,
        (serve w cuts junk kind.code path (upload w kind)).2⟩ := by
  have hmax : path.length < pathMax := by
    unfold fileSize at hfits
    unfold pathMax
    omega
  rw [request, transfile_whole hkind, getLen_whole hlen hmax, getPath_whole hnul hcut hfits]

end Request

/-- Requests are framed right exactly if they are read whole, their path fits, and a removal works. -/
theorem framed_iff (w : World) (cuts : Cuts) (kind : Kind) (path : Path) :
    Framed w cuts kind path ↔ WholeReads w cuts kind path := by
  constructor
  · intro h
    have hkind : 4 ≤ cuts.kind := by
      by_contra hcut
      obtain ⟨k, hk, hneg⟩ := @transfile_short w cuts kind.code
        (bytesOf 4 path.bytes.length ++ (path.bytes ++ upload w kind)) (by omega)
      have hsame := (h (junkOf 0x80) _ rfl).1
      rw [request, hk] at hsame
      have hcode := kind.code_bounds.1
      have heq := Option.some.inj hsame
      omega
    have hlen : 4 ≤ cuts.len := by
      by_contra hcut
      obtain ⟨i, hi, hneg⟩ := @getLen_short w cuts kind.code path.bytes.length
        (path.bytes ++ upload w kind) (by omega)
      have hin := (h (junkOf 0x80) _ rfl).2.2.1 i (by rwa [request, transfile_whole hkind])
      omega
    have hpath : ∀ junk, transfile w cuts junk (request w kind path.bytes) = getPath w cuts junk
        kind.code path.bytes.length (path.bytes ++ upload w kind) := by
      intro junk
      rw [request, transfile_whole hkind, getLen_whole hlen path.short]
    have hfits : path.bytes.length < fileSize := by
      have hin := (h (junkOf 0) _ rfl).2.2.1 path.bytes.length (by
        rw [hpath]
        exact getPath_overrun)
      omega
    have hcut : path.bytes.length ≤ max 1 cuts.path := by
      by_contra hshort
      have hsame := (h (junkOf 0) _ rfl).2.1
      rw [hpath] at hsame
      exact getPath_short (by omega) hsame
    have hagrees : Agrees w cuts kind path.bytes := by
      intro junk
      have hturns := (h junk _ rfl).2.2.2
      rw [transfile_request path.nul_notMem hkind hlen hcut hfits] at hturns
      exact List.append_cancel_left hturns
    obtain ⟨hsize, hreply, hunlinks⟩ := agrees_iff.mp hagrees
    exact ⟨hkind, hlen, hcut, hfits, hsize, hreply, hunlinks⟩
  · rintro ⟨hkind, hlen, hcut, hfits, hsize, hreply, hunlinks⟩ junk s rfl
    have hagrees : Agrees w cuts kind path.bytes := agrees_iff.mpr ⟨hsize, hreply, hunlinks⟩
    rw [transfile_request path.nul_notMem hkind hlen hcut hfits]
    refine ⟨rfl, rfl, (inFile_iff _).mpr hfits, ?_⟩
    change pathTurns ++ _ = pathTurns ++ _
    rw [hagrees junk]

/-- Both sides have an empty file everywhere. -/
def emptyFiles : World where
  remote _ := ⟨0, by decide, by decide⟩
  unlinks _ := true
  mkdirs _ := true
  upload := some []
  fits := by
    rintro data ⟨⟩
    decide

/-- A path as long as `file`. -/
def longPath : Path where
  bytes := List.replicate 1024 slash
  nul_notMem := fun h => absurd (List.eq_of_mem_replicate h) (by decide)
  short := by
    rw [List.length_replicate]
    decide

/-- Its zero byte is written behind the buffer. With another cut, a path loses its end, and another
file is removed. -/
theorem not_framed :
    ¬ Framed emptyFiles ⟨4, 4, 1024, 8, 8⟩ .download longPath ∧
      ∃ junk, (transfile emptyFiles ⟨4, 4, 2, 8, 8⟩ junk
        (request emptyFiles .remove (cstr "/ab"))).path = some (cstr "/a") := by
  constructor
  · intro h
    have hlen : longPath.bytes.length = 1024 := List.length_replicate
    have hin := (h (junkOf 0) _ rfl).2.2.1 longPath.bytes.length (by
      rw [request, transfile_whole (by decide), getLen_whole (by decide) longPath.short]
      exact getPath_overrun)
    rw [hlen] at hin
    exact absurd hin (by decide)
  · exact ⟨junkOf 0, by decide +kernel⟩

end FusionFS.Framing
