import FusionFS.Framing

/-!
# The status of a removal

`ffs_rmfile` against `transfile`. The connection may end anywhere: in front of a call of the client,
in the middle of what the daemon receives, or before the status arrives.
-/

namespace FusionFS.Framing

open RawInt

/-- The calls of `ffs_rmfile` before it waits for the status. -/
inductive Call where
  | getaddrinfo
  | connect
  | sendKind
  | sendLen
  | sendName
  deriving DecidableEq

/-- The calls that fail, and how many bytes reach the daemon and the client before the connection
ends. -/
structure Link where
  fails : Call → Bool
  up : Nat
  down : Nat

/-- The end of `ffs_rmfile`. -/
def awaitStatus (cuts : Cuts) (junk : Junk) (down : Bytes) : Int :=
  match recv 4 cuts.reply down with
  | none => 0
  | some (got, _) => intOf (filled 4 got junk.reply)

/-- `ffs_rmfile`, for what the daemon sends. -/
def ffsRmfile (link : Link) (cuts : Cuts) (junk : Junk) (reply : Bytes) : Int :=
  if link.fails .getaddrinfo then -1
  else if link.fails .connect then -1
  else if link.fails .sendKind then -1
  else if link.fails .sendLen then -1
  else if link.fails .sendName then -1
  else awaitStatus cuts junk (reply.take link.down)

/-- What the daemon does with the part of the request that it receives. -/
def service (w : World) (link : Link) (cuts : Cuts) (junk : Junk) (path : Path) : Service :=
  transfile w cuts junk ((request w .remove path.bytes).take link.up)

/-- A 0 is returned only for a file that the daemon has unlinked. -/
def Truthful (w : World) (link : Link) (cuts : Cuts) (path : Path) : Prop :=
  ∀ junk, ffsRmfile link cuts junk (service w link cuts junk path).reply = 0 →
    (service w link cuts junk path).kind = some Kind.remove.code ∧
      (service w link cuts junk path).path = some path.bytes ∧ w.unlinks path.bytes = true

/-- The request arrives, no `recv` of the daemon returns less than it was asked for, the path fits
into `file`, and the file can be removed. -/
structure Removable (w : World) (link : Link) (cuts : Cuts) (path : Path) : Prop where
  arrives : 8 + path.bytes.length ≤ link.up
  wholeKind : 4 ≤ cuts.kind
  wholeLen : 4 ≤ cuts.len
  wholePath : path.bytes.length ≤ max 1 cuts.path
  fits : path.bytes.length < fileSize
  unlinks : w.unlinks path.bytes = true

section

variable {w : World} {link : Link} {cuts : Cuts} {junk : Junk} {path : Path} {cut want : Nat}
  {stream : Bytes}

theorem take_append_of_le {bs rest : Bytes} {n : Nat} (h : bs.length ≤ n) :
    (bs ++ rest).take n = bs ++ rest.take (n - bs.length) := by
  rw [List.take_append, List.take_of_length_le h]

theorem recv_cases (hpos : 0 < want) :
    (stream = [] ∧ recv want cut stream = none) ∨
      ∃ got rest, recv want cut stream = some (got, rest) ∧ stream = got ++ rest ∧
        got.length ≤ want ∧ got.length ≤ max 1 cut := by
  unfold recv
  rw [if_neg (by omega)]
  by_cases hnil : stream = []
  · exact .inl ⟨hnil, if_pos hnil⟩
  · refine .inr ⟨_, _, if_neg hnil, (List.take_append_drop _ _).symm, ?_, ?_⟩
    · rw [List.length_take, Int.toNat_natCast]
      omega
    · rw [List.length_take, Int.toNat_natCast]
      omega

/-- An integer may be negative for the bytes that are missing. -/
theorem recv_int_cases (cut : Nat) (stream : Bytes) :
    recv 4 cut stream = none ∨
      (∃ got rest, recv 4 cut stream = some (got, rest) ∧ intOf (filled 4 got fun _ => 0x80) < 0) ∨
        4 ≤ stream.length ∧ 4 ≤ cut := by
  have hcases := @recv_cases cut 4 stream (by decide)
  simp only [Nat.cast_ofNat] at hcases
  obtain ⟨-, hrecv⟩ | ⟨got, rest, hrecv, hup, hwant, hcut⟩ := hcases
  · exact .inl hrecv
  right
  by_cases hlen : got.length = 4
  · right
    rw [hup, List.length_append]
    omega
  · left
    refine ⟨got, rest, hrecv, ?_⟩
    rw [@filled_short 3 got _ (by omega)]
    exact intOf_concat_neg _

theorem ffsRmfile_of_fails {c : Call} (hc : link.fails c = true) (reply : Bytes) :
    ffsRmfile link cuts junk reply = -1 := by
  unfold ffsRmfile
  cases c <;> simp [hc]

theorem ffsRmfile_of_sent (hsent : ∀ c, link.fails c = false) (reply : Bytes) :
    ffsRmfile link cuts junk reply = awaitStatus cuts junk (reply.take link.down) := by
  simp [ffsRmfile, hsent]

/-- No status, and as much as there is of the status 0, both read as 0. -/
theorem awaitStatus_zero (hjunk : junk.reply = fun _ => 0) (hzero : ∀ b ∈ stream, b = 0) :
    awaitStatus cuts junk stream = 0 := by
  have hcases := @recv_cases cuts.reply 4 stream (by decide)
  rw [awaitStatus]
  simp only [Nat.cast_ofNat] at hcases
  obtain ⟨-, hrecv⟩ | ⟨got, rest, hrecv, rfl, -, -⟩ := hcases
  · rw [hrecv]
  · rw [hrecv, hjunk]
    have hfilled : filled 4 got (fun _ => 0) = [0, 0, 0, 0] := by
      have hall : ∀ i : Nat, got[i]?.getD 0 = 0 := by
        intro i
        cases hi : got[i]? with
        | none => rfl
        | some b => exact hzero b (List.mem_append_left rest (List.mem_of_getElem? hi))
      simp [filled, hall, List.range_succ]
    calc intOf (filled 4 got fun _ => 0)
        = intOf [0, 0, 0, 0] := by rw [hfilled]
      _ = 0 := by decide

theorem serve_remove_reply (path : Bytes) (up : Bytes) :
    ∀ b ∈ (serve w cuts junk Kind.remove.code path up).2, b = 0 := by
  change ∀ b ∈ (if w.unlinks path then ([(Party.daemon, Message.status)], bytesOf 4 0) else ([], [])).2,
    b = 0
  split
  · intro b hb
    have hzero : (bytesOf 4 0).all (· == 0) = true := by decide
    simpa using List.all_eq_true.mp hzero b hb
  · exact fun b hb => absurd hb List.not_mem_nil

theorem getPath_remove_reply (len : Int) (up : Bytes) :
    ∀ b ∈ (getPath w cuts junk Kind.remove.code len up).reply, b = 0 := by
  rw [getPath]
  cases recv len cuts.path up with
  | none => exact fun b hb => absurd hb List.not_mem_nil
  | some r =>
      dsimp only
      split
      · exact serve_remove_reply _ _
      · exact fun b hb => absurd hb List.not_mem_nil

theorem transfile_kind (hjunk : junk.kind = fun _ => 0x80) (up : Bytes) :
    ((∀ b ∈ (transfile w cuts junk up).reply, b = 0) ∧
        (transfile w cuts junk up).kind ≠ some Kind.remove.code) ∨
      4 ≤ up.length ∧ 4 ≤ cuts.kind := by
  rw [transfile, hjunk]
  obtain hrecv | ⟨got, rest, hrecv, hneg⟩ | hwhole := recv_int_cases cuts.kind up
  · rw [hrecv]
    exact .inl ⟨fun b hb => absurd hb List.not_mem_nil, (Option.some_ne_none _).symm⟩
  · rw [hrecv]
    dsimp only
    rw [if_pos (.inl hneg)]
    refine .inl ⟨fun b hb => absurd hb List.not_mem_nil, fun heq => ?_⟩
    have hcode : Kind.remove.code = 2 := rfl
    have hsame := Option.some.inj heq
    omega
  · exact .inr hwhole

theorem getLen_short_remove (hjunk : junk.len = fun _ => 0x80) (up : Bytes) :
    ((∀ b ∈ (getLen w cuts junk Kind.remove.code up).reply, b = 0) ∧
        (getLen w cuts junk Kind.remove.code up).path = none) ∨
      4 ≤ up.length ∧ 4 ≤ cuts.len := by
  rw [getLen, hjunk]
  obtain hrecv | ⟨got, rest, hrecv, hneg⟩ | hwhole := recv_int_cases cuts.len up
  · rw [hrecv]
    exact .inl ⟨fun b hb => absurd hb List.not_mem_nil, rfl⟩
  · rw [hrecv]
    dsimp only
    rw [getPath_of_neg hneg]
    exact .inl ⟨fun b hb => absurd hb List.not_mem_nil, rfl⟩
  · exact .inr hwhole

theorem getPath_whole_of_path (hjunk : junk.file = fun _ => 0) {bs up : Bytes}
    (h : (getPath w cuts junk Kind.remove.code bs.length up).path = some bs) :
    bs.length ≤ max 1 cuts.path ∧ bs.length ≤ up.length ∧ bs.length < fileSize := by
  rcases Nat.eq_zero_or_pos bs.length with hzero | hpos
  · rw [hzero]
    exact ⟨Nat.zero_le _, Nat.zero_le _, by decide⟩
  · rw [getPath] at h
    obtain ⟨-, hrecv⟩ | ⟨got, rest, hrecv, rfl, hwant, hcut⟩ := @recv_cases cuts.path bs.length up hpos
    · rw [hrecv] at h
      cases h
    · rw [hrecv] at h
      dsimp only at h
      split at h
      · next hin =>
        have hfits : bs.length < fileSize := by
          have hlast := hin bs.length (by simp)
          omega
        have hwhole : got.length = bs.length := by
          by_contra hne
          have hlt := @length_stringIn_filled_lt bs.length got (by omega)
          have hsame := congrArg List.length (Option.some.inj h)
          rw [Int.toNat_natCast, hjunk] at hsame
          omega
        rw [List.length_append]
        omega
      · cases h

end

/-- **A 0 tells that the file was removed** exactly if the client gives up before it waits for the
status, or there is no failure to be told of. -/
theorem removeStatus_iff (w : World) (link : Link) (cuts : Cuts) (path : Path) :
    Truthful w link cuts path ↔
      (∃ c, link.fails c = true) ∨ Removable w link cuts path := by
  have hrequest : request w .remove path.bytes =
      bytesOf 4 Kind.remove.code ++ (bytesOf 4 path.bytes.length ++ path.bytes) := by
    rw [request, upload, if_neg (by decide), List.append_nil]
  have hlength : (request w .remove path.bytes).length = 8 + path.bytes.length := by
    rw [hrequest, List.length_append, List.length_append, length_bytesOf, length_bytesOf]
    omega
  constructor
  · intro h
    by_cases hfails : ∃ c, link.fails c = true
    · exact .inl hfails
    right
    have hsent : ∀ c, link.fails c = false := by simpa using hfails
    -- a reply of zeros, however much of it arrives, leaves the claim of the status to be met
    have hzero : ∀ junk : Junk, junk.reply = (fun _ => 0) →
        (∀ b ∈ (service w link cuts junk path).reply, b = 0) →
        (service w link cuts junk path).kind = some Kind.remove.code ∧
          (service w link cuts junk path).path = some path.bytes ∧ w.unlinks path.bytes = true := by
      intro junk hjunk hreply
      apply h
      rw [ffsRmfile_of_sent hsent]
      exact awaitStatus_zero hjunk fun b hb => hreply b (List.mem_of_mem_take hb)
    let junk : Junk := ⟨fun _ => 0x80, fun _ => 0x80, fun _ => 0, fun _ => 0, fun _ => 0⟩
    have hall := hzero junk rfl
    unfold service at hall
    rw [hrequest] at hall
    obtain ⟨hreply, hkind⟩ | ⟨hup, hkind⟩ := @transfile_kind w cuts junk rfl
      ((bytesOf 4 Kind.remove.code ++ (bytesOf 4 path.bytes.length ++ path.bytes)).take link.up)
    · exact absurd (hall hreply).1 hkind
    have hup₁ : (bytesOf 4 Kind.remove.code).length ≤ link.up := by
      rw [List.length_take] at hup
      rw [length_bytesOf]
      omega
    rw [take_append_of_le hup₁, length_bytesOf, transfile_whole hkind] at hall
    obtain ⟨hreply, hpath⟩ | ⟨hup', hlen⟩ := @getLen_short_remove w cuts junk rfl
      ((bytesOf 4 path.bytes.length ++ path.bytes).take (link.up - 4))
    · rw [hpath] at hall
      cases (hall hreply).2.1
    have hup₂ : (bytesOf 4 path.bytes.length).length ≤ link.up - 4 := by
      rw [List.length_take] at hup'
      rw [length_bytesOf]
      omega
    rw [take_append_of_le hup₂, length_bytesOf, getLen_whole hlen path.short] at hall
    obtain ⟨-, hpath, hunlinks⟩ := hall (getPath_remove_reply _ _)
    obtain ⟨hcut, harrives, hfits⟩ := getPath_whole_of_path rfl hpath
    rw [List.length_take] at harrives
    rw [length_bytesOf] at hup₁ hup₂
    exact ⟨by omega, hkind, hlen, hcut, hfits, hunlinks⟩
  · rintro (⟨c, hc⟩ | hserved) junk hret
    · rw [ffsRmfile_of_fails hc] at hret
      cases hret
    · obtain ⟨harrives, hkind, hlen, hcut, hfits, hunlinks⟩ := hserved
      have hall : (request w .remove path.bytes).take link.up = request w .remove path.bytes :=
        List.take_of_length_le (by omega)
      rw [service, hall, transfile_request path.nul_notMem hkind hlen hcut hfits]
      exact ⟨rfl, rfl, hunlinks⟩

/-- Everything arrives, and there is no file to remove. -/
def nothingThere : World := { emptyFiles with unlinks := fun _ => false }

/-- The daemon fails to unlink `/a`, and the client returns 0. -/
theorem not_removeStatus :
    (∀ junk, ffsRmfile ⟨fun _ => false, 10, 4⟩ ⟨4, 4, 2, 8, 4⟩ junk
        (service nothingThere ⟨fun _ => false, 10, 4⟩ ⟨4, 4, 2, 8, 4⟩ junk
          ⟨cstr "/a", by decide, by decide⟩).reply = 0) ∧
      ¬ Truthful nothingThere ⟨fun _ => false, 10, 4⟩ ⟨4, 4, 2, 8, 4⟩
        ⟨cstr "/a", by decide, by decide⟩ := by
  have hreply : ∀ junk, (service nothingThere ⟨fun _ => false, 10, 4⟩ ⟨4, 4, 2, 8, 4⟩ junk
      ⟨cstr "/a", by decide, by decide⟩).reply = [] := by
    intro junk
    have hall : (request nothingThere .remove (cstr "/a")).take 10 =
        request nothingThere .remove (cstr "/a") := by
      decide
    rw [service, hall, transfile_request (by decide) (by decide) (by decide) (by decide) (by decide)]
    rfl
  have hzero : ∀ junk, ffsRmfile ⟨fun _ => false, 10, 4⟩ ⟨4, 4, 2, 8, 4⟩ junk
      (service nothingThere ⟨fun _ => false, 10, 4⟩ ⟨4, 4, 2, 8, 4⟩ junk
        ⟨cstr "/a", by decide, by decide⟩).reply = 0 := by
    intro junk
    rw [hreply]
    rfl
  refine ⟨hzero, fun h => ?_⟩
  obtain ⟨-, -, hunlinks⟩ := h (junkOf 0) (hzero (junkOf 0))
  cases hunlinks

end FusionFS.Framing
