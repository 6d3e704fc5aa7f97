import FusionFS.Framing
import FusionFS.RoundTrip

/-!
# What a client is told

`ZHTClient::insert`, `ZHTClient::remove` and `ZHTClient::lookup` over a connection that may fail at
any call and cut any message, and on which earlier replies may still wait to be read.
-/

namespace FusionFS

open Framing (filled)

open Package

/-- What becomes of one call's connection. -/
structure Connection where
  connects : Bool
  /-- As many bytes as `send` takes, if there are so many; `none` for an error. -/
  sent : Option Nat
  /-- As many of them as the server gets. -/
  arrives : Nat
  /-- As many bytes as `recv` returns, if there are so many; `none` for an error. -/
  received : Option Nat
  /-- What earlier calls have left unread. -/
  stale : Bytes

namespace Connection

variable (net : Connection) (frame : Frame) (toServer : Segmentation maxMsgSize) (st : Store)
  (str : Bytes)

/-- `generalSendTo`. Without a connection the socket is -1. -/
def generalSendTo : Option Nat :=
  if net.connects then net.sent.map fun n => min n (cString str).length else none

/-- What the server gets of a request. -/
def request : Bytes := (cString str).take (min ((net.generalSendTo str).getD 0) net.arrives)

def replies : Bytes := net.stale ++ (serve frame toServer st (net.request str)).2.flatten

/-- `generalReceive` into a buffer of `size` bytes. At the end of the stream it returns no byte. -/
def generalReceive (size : Nat) : Option Bytes :=
  if net.connects then
    net.received.map fun n => (net.replies frame toServer st str).take (min n size)
  else none

/-- The server has got the request with one `recv`, and nothing else. -/
def Executed : Prop := toServer.chunks (net.request str) = [str]

end Connection

namespace ZHTClient

variable (net : Connection) (frame : Frame) (toServer : Segmentation maxMsgSize) (st : Store)
  (junk : Nat → UInt8) (returnStr str : Bytes)

/-- `ZHTClient::insert`, with what `malloc` has left in `ret_buf`. No result is looked at. -/
def insert : Int :=
  readInt32 (filled 4 ((net.generalReceive frame toServer st str 4).getD []) junk)

/-- What `ZHTClient::remove` sends. -/
def removeRequest : Bytes :=
  serialize { parse str with operation := some 2, replicaNo := some 3 }

def remove : Int :=
  let str := removeRequest str
  readInt32 (filled 4 ((net.generalReceive frame toServer st str 4).getD []) junk)

/-- The package `ZHTClient::lookup` sends. -/
def lookupRequest : Package :=
  { parse str with operation := some 1, replicaNo := some 3 }

/-- `ZHTClient::lookup`: the status and `returnStr`, or `none` if it throws or reads past `buff`. -/
def lookup : Option (Int × Bytes) :=
  let str := (lookupRequest str).serialize
  if net.generalSendTo str = some str.length then
    match net.generalReceive frame toServer st str maxMsgSize with
    | none => some (-1, returnStr)
    | some buff => do
        let sRecv ← receivedString buff
        if sRecv.length < 2 then none
        else some (atoi (sRecv.take 2), sRecv.drop 2)
  else some (-1, returnStr)

end ZHTClient

/-! ### What the status should mean -/

section Meaning

variable (net : Connection) (frame : Frame) (toServer : Segmentation maxMsgSize) (st : Store)

/-- A server that is asked for the key says that it has none. -/
def ReportsAbsent (p : Package) : Prop := p.virtualpath ≠ [] ∧ hbLookup st p = cstr "Empty"

/-- There is a status; 0 comes with the stored value, and -2 if the server has reported that there is
none. -/
def LookupTruthful (returnStr str : Bytes) : Prop :=
  ∃ status value, ZHTClient.lookup net frame toServer st returnStr str = some (status, value) ∧
    (status = 0 → net.Executed toServer (ZHTClient.lookupRequest str).serialize ∧
      st (ZHTClient.lookupRequest str).virtualpath = some value) ∧
    (status = -2 → net.Executed toServer (ZHTClient.lookupRequest str).serialize ∧
      ReportsAbsent st (ZHTClient.lookupRequest str))

/-- What has to arrive of the reply to a lookup that the server has executed: all of it if the key is
stored, with a value that is a C string and a zero left in the buffer, and else the two characters of
the status. -/
def AnswerHeard (p : Package) (buff : Bytes) : Prop :=
  match st p.virtualpath with
  | some value =>
      if p.virtualpath = [] ∨ value = cstr "Empty" then 2 ≤ buff.length
      else 0 ∉ value ∧ value.length + 2 < maxMsgSize ∧ buff.length = value.length + 2
  | none => 2 ≤ buff.length

/-- The bytes on the connection are those of the answer: the server has got the lookup as it was
sent, no earlier reply waits to be read, and the zero behind the status has a byte for itself. -/
structure OwnReply (str : Bytes) : Prop where
  executed : net.Executed toServer (ZHTClient.lookupRequest str).serialize
  stale : net.stale = []
  spare : frame.Spare

/-- The client gets no reply to a lookup and knows it, or enough of its own one. -/
def LookupHeard (str : Bytes) : Prop :=
  let request := (ZHTClient.lookupRequest str).serialize
  net.generalSendTo request = some request.length →
    ∀ buff, net.generalReceive frame toServer st request maxMsgSize = some buff →
      OwnReply net frame toServer str ∧ AnswerHeard st (ZHTClient.lookupRequest str) buff

end Meaning

/-! ### A status of four bytes -/

section Status

variable {net : Connection} {frame : Frame} {toServer : Segmentation maxMsgSize} {st : Store}
  {str got : Bytes} {junk : Nat → UInt8}

end Status

/-! ### The reply to a lookup -/

section Lookup

variable {net : Connection} {frame : Frame} {toServer : Segmentation maxMsgSize} {st : Store}
  {str buff returnStr : Bytes} {p : Package}

/-- A package whose encoding has no zero has no field that encodes as one. -/
theorem clean_of_zero_notMem (hzero : 0 ∉ p.serialize) (hlen : p.serialize.length ≤ maxMsgSize)
    (hoperation : ∀ n ∈ p.operation, 0 < n ∧ n < 2 ^ 31)
    (hreplicaNo : ∀ n ∈ p.replicaNo, 0 < n ∧ n < 2 ^ 31) : p.Clean := by
  have hfield : ∀ field ∈ p.fields, 0 ∉ Protobuf.putField field := by
    intro field hfield hmem
    exact hzero (List.mem_flatMap.mpr ⟨field, hfield, hmem⟩)
  have hbytes : ∀ num v, (num, Protobuf.Value.bytes v) ∈ p.fields → CleanValue (.bytes v) := by
    intro num v hmem
    have hnot := hfield _ hmem
    have hshort := Protobuf.length_le_of_mem hmem
    rw [Protobuf.putField, List.mem_append, List.mem_append, not_or, not_or] at hnot
    refine ⟨?_, hnot.2, ?_⟩
    · rintro rfl
      exact hnot.1.2 (by decide)
    · have hword : maxMsgSize < Protobuf.word := by decide
      rw [serialize] at hlen
      omega
  refine ⟨?_, ?_, ?_, hoperation, hreplicaNo⟩
  · intro v hv
    apply hbytes 1
    rw [Option.mem_def] at hv
    simp [fields, hv]
  · intro v hv
    apply hbytes 3
    rw [Option.mem_def] at hv
    simp [fields, hv]
  · intro b hb
    rw [Option.mem_def] at hb
    have hmem : (4, Protobuf.Value.varint b.toNat) ∈ p.fields := by simp [fields, hb]
    cases b with
    | true => rfl
    | false => exact absurd (by decide) (hfield _ hmem)

theorem Connection.Executed.request_eq (h : net.Executed toServer str) :
    net.request str = str ∧ 0 ∉ str ∧ str.length ≤ maxMsgSize := by
  have hflat := toServer.flatten_chunks (net.request str)
  have hlen := toServer.length_le (net.request str) str (by rw [h]; exact List.mem_singleton_self str)
  rw [h, List.flatten_singleton] at hflat
  refine ⟨hflat.symm, ?_, hlen⟩
  intro hzero
  rw [hflat] at hzero
  have hin := List.mem_of_mem_take hzero
  have hne := List.mem_takeWhile_imp hin
  simp at hne

theorem Connection.Executed.replies_eq (h : net.Executed toServer str) (hstale : net.stale = []) :
    net.replies frame toServer st str = ((dataService frame st str).2.toList).flatten := by
  rw [Connection.replies, serve, h, hstale]
  simp

theorem clean_lookupRequest (h : net.Executed toServer (ZHTClient.lookupRequest str).serialize) :
    (ZHTClient.lookupRequest str).Clean := by
  obtain ⟨-, hzero, hlen⟩ := h.request_eq
  apply clean_of_zero_notMem hzero hlen
  · intro n hn
    obtain rfl := Option.some.inj hn
    decide
  · intro n hn
    obtain rfl := Option.some.inj hn
    decide

theorem cString_append (hne : 0 ∉ str) (value : Bytes) :
    cString (str ++ value) = str ++ cString value := by
  rw [cString, List.takeWhile_append_of_pos]
  · rfl
  · intro b hb
    rw [bne_iff_ne]
    rintro rfl
    exact hne hb

/-- What the server answers to a lookup. -/
def lookupReply (st : Store) (p : Package) : Bytes :=
  match st p.virtualpath with
  | some value =>
      if p.virtualpath = [] then cstr "-1"
      else if value = cstr "Empty" then cstr "-2Empty"
      else cstr "00" ++ cString value
  | none => if p.virtualpath = [] then cstr "-1" else cstr "-2Empty"

theorem dataService_of_lookup (hspare : frame.Spare) (hp : p.Clean) (hop : p.op = 1) :
    (dataService frame st p.serialize).2 = some (lookupReply st p) := by
  simp only [dataService, hp.parse_received, hop, lookupReply, hbLookup, hspare.sAllInOne_eq]
  by_cases hkey : p.virtualpath = []
  · simp only [hkey, if_true, List.append_nil]
    cases st [] <;> rfl
  · simp only [hkey, if_false]
    cases hst : st p.virtualpath with
    | none => rfl
    | some value =>
        by_cases hempty : value = cstr "Empty"
        · subst hempty
          rfl
        · simp only [Option.getD_some, hempty, if_false]
          rw [← cString_append (by decide)]
          rfl

theorem receivedString_of_notMem (hzero : 0 ∉ buff) :
    receivedString buff = if buff.length < maxMsgSize then some buff else none := by
  rw [receivedString, cString_eq_self.mpr hzero]
  by_cases hlen : buff.length < maxMsgSize
  · simp [hlen]
  · simp [hlen, hzero]

theorem lookup_of_received
    (hsent : net.generalSendTo (ZHTClient.lookupRequest str).serialize =
      some (ZHTClient.lookupRequest str).serialize.length)
    (hbuff : net.generalReceive frame toServer st (ZHTClient.lookupRequest str).serialize maxMsgSize =
      some buff) :
    ZHTClient.lookup net frame toServer st returnStr str =
      (receivedString buff).bind fun sRecv =>
        if sRecv.length < 2 then none else some (atoi (sRecv.take 2), sRecv.drop 2) := by
  rw [ZHTClient.lookup]
  simp only [hsent, if_true, hbuff]
  rfl

theorem lookup_of_notMem
    (hsent : net.generalSendTo (ZHTClient.lookupRequest str).serialize =
      some (ZHTClient.lookupRequest str).serialize.length)
    (hbuff : net.generalReceive frame toServer st (ZHTClient.lookupRequest str).serialize maxMsgSize =
      some buff) (hzero : 0 ∉ buff) :
    ZHTClient.lookup net frame toServer st returnStr str =
      if 2 ≤ buff.length ∧ buff.length < maxMsgSize then some (atoi (buff.take 2), buff.drop 2)
      else none := by
  rw [lookup_of_received hsent hbuff, receivedString_of_notMem hzero]
  by_cases hlen : buff.length < maxMsgSize
  · rw [if_pos hlen, Option.bind_some]
    by_cases htwo : 2 ≤ buff.length
    · rw [if_neg (by omega), if_pos ⟨htwo, hlen⟩]
    · rw [if_pos (by omega), if_neg (fun h => htwo h.1)]
  · rw [if_neg hlen, if_neg (fun h => hlen h.2)]
    rfl

theorem lookupReply_cases (st : Store) (p : Package) :
    ((lookupReply st p = cstr "-1" ∨ lookupReply st p = cstr "-2Empty" ∧ ReportsAbsent st p) ∧
        ∀ buff, AnswerHeard st p buff ↔ 2 ≤ buff.length) ∨
      ∃ value, st p.virtualpath = some value ∧ lookupReply st p = cstr "00" ++ cString value ∧
        ∀ buff, AnswerHeard st p buff ↔
          0 ∉ value ∧ value.length + 2 < maxMsgSize ∧ buff.length = value.length + 2 := by
  unfold lookupReply AnswerHeard ReportsAbsent hbLookup
  cases hst : st p.virtualpath with
  | none =>
      left
      refine ⟨?_, fun _ => Iff.rfl⟩
      by_cases hkey : p.virtualpath = []
      · exact .inl (if_pos hkey)
      · exact .inr ⟨if_neg hkey, hkey, rfl⟩
  | some value =>
      by_cases hkey : p.virtualpath = []
      · left
        simp [hkey]
      · by_cases hempty : value = cstr "Empty"
        · left
          simp [hkey, hempty]
        · right
          exact ⟨value, rfl, by simp [hkey, hempty], by simp [hkey, hempty]⟩

theorem zero_notMem_lookupReply (st : Store) (p : Package) : 0 ∉ lookupReply st p := by
  obtain ⟨heq | ⟨heq, -⟩, -⟩ | ⟨value, -, heq, -⟩ := lookupReply_cases st p
  · rw [heq]
    decide
  · rw [heq]
    decide
  · rw [heq, List.mem_append, not_or]
    refine ⟨by decide, fun hzero => ?_⟩
    have hne := List.mem_takeWhile_imp hzero
    simp at hne

theorem take_two_take {status : Bytes} (rest : Bytes) (htwo : status.length = 2) {m : Nat}
    (hlen : 2 ≤ ((status ++ rest).take m).length) :
    ((status ++ rest).take m).take 2 = status ∧
      ((status ++ rest).take m).drop 2 = rest.take (m - 2) := by
  have hm : 2 ≤ m := by
    rw [List.length_take] at hlen
    omega
  have hsplit : (status ++ rest).take m = status ++ rest.take (m - 2) := by
    rw [List.take_append, List.take_of_length_le (by omega), htwo]
  rw [hsplit]
  exact ⟨List.take_left' htwo, List.drop_left' htwo⟩

/-- The status and the value that the bytes in the buffer make are there, and mean what they should. -/
def SplitTruthful (found : Bytes → Prop) (absent : Prop) (buff : Bytes) : Prop :=
  (2 ≤ buff.length ∧ buff.length < maxMsgSize) ∧ (atoi (buff.take 2) = 0 → found (buff.drop 2)) ∧
    (atoi (buff.take 2) = -2 → absent)

theorem lookupTruthful_iff_split
    (hsent : net.generalSendTo (ZHTClient.lookupRequest str).serialize =
      some (ZHTClient.lookupRequest str).serialize.length)
    (hbuff : net.generalReceive frame toServer st (ZHTClient.lookupRequest str).serialize maxMsgSize =
      some buff) (hzero : 0 ∉ buff) :
    LookupTruthful net frame toServer st returnStr str ↔
      SplitTruthful
        (fun value => net.Executed toServer (ZHTClient.lookupRequest str).serialize ∧
          st (ZHTClient.lookupRequest str).virtualpath = some value)
        (net.Executed toServer (ZHTClient.lookupRequest str).serialize ∧
          ReportsAbsent st (ZHTClient.lookupRequest str)) buff := by
  unfold LookupTruthful
  rw [lookup_of_notMem hsent hbuff hzero]
  constructor
  · rintro ⟨status, value, hlookup, hmeans⟩
    split at hlookup
    · next hfits =>
      obtain ⟨rfl, rfl⟩ := Prod.mk.inj (Option.some.inj hlookup)
      exact ⟨hfits, hmeans⟩
    · cases hlookup
  · rintro ⟨hfits, hmeans⟩
    exact ⟨_, _, if_pos hfits, hmeans⟩

section Split

variable {found : Bytes → Prop} {absent : Prop} {reply value : Bytes} {m : Nat}

/-- What is refused is short, and is told by its first two characters. -/
theorem splitTruthful_of_refusal (hreply : reply = cstr "-1" ∨ reply = cstr "-2Empty" ∧ absent)
    (hpart : buff = reply.take m) : SplitTruthful found absent buff ↔ 2 ≤ buff.length := by
  have hmax : 7 < maxMsgSize := by decide
  have hlen : reply.length ≤ 7 := by
    rcases hreply with rfl | ⟨rfl, -⟩
    · decide
    · decide
  constructor
  · exact fun h => h.1.1
  · intro htwo
    have hfits : buff.length < maxMsgSize := by
      rw [hpart, List.length_take]
      omega
    refine ⟨⟨htwo, hfits⟩, ?_⟩
    rw [hpart] at htwo ⊢
    rcases hreply with rfl | ⟨rfl, habsent⟩
    · have hfront : ((cstr "-1").take m).take 2 = cstr "-1" := (@take_two_take (cstr "-1") [] rfl m htwo).1
      rw [hfront]
      exact ⟨fun h => absurd h (by decide), fun h => absurd h (by decide)⟩
    · have hfront : ((cstr "-2Empty").take m).take 2 = cstr "-2" :=
        (@take_two_take (cstr "-2") (cstr "Empty") rfl m htwo).1
      rw [hfront]
      exact ⟨fun h => absurd h (by decide), fun _ => habsent⟩

/-- A value behind a status of 0 has to be a C string, and to come whole with room for its end. -/
theorem splitTruthful_of_value (hfound : ∀ v, found v ↔ v = value)
    (hpart : buff = (cstr "00" ++ cString value).take m) : SplitTruthful found absent buff ↔
      0 ∉ value ∧ value.length + 2 < maxMsgSize ∧ buff.length = value.length + 2 := by
  have hle : (cString value).length ≤ value.length := (List.takeWhile_prefix _).length_le
  have htwo : (cstr "00").length = 2 := by decide
  have hsplit : 2 ≤ buff.length →
      buff.take 2 = cstr "00" ∧ buff.drop 2 = (cString value).take (m - 2) := by
    intro h
    rw [hpart] at h ⊢
    exact take_two_take (cString value) htwo h
  constructor
  · rintro ⟨⟨h2, hfits⟩, hmeans, -⟩
    obtain ⟨hfront, hrest⟩ := hsplit h2
    have hvalue : buff.drop 2 = value := (hfound _).mp (hmeans (by rw [hfront]; decide))
    have hlen : value.length = buff.length - 2 := by rw [← hvalue, List.length_drop]
    refine ⟨?_, by omega, by omega⟩
    intro hmem
    rw [← hvalue, hrest] at hmem
    have hne := List.mem_takeWhile_imp (List.mem_of_mem_take hmem)
    simp at hne
  · rintro ⟨hclean, hfits, hlen⟩
    obtain ⟨hfront, hrest⟩ := hsplit (by omega)
    have hvalue : buff.drop 2 = value := by
      rw [hrest, cString_eq_self.mpr hclean]
      apply List.take_of_length_le
      rw [hpart, List.length_take] at hlen
      omega
    refine ⟨⟨by omega, by omega⟩, ?_, ?_⟩
    · exact fun _ => (hfound _).mpr hvalue
    · intro h
      rw [hfront] at h
      exact absurd h (by decide)

end Split

theorem lookupTruthful_of_ownReply (hown : OwnReply net frame toServer str)
    (hsent : net.generalSendTo (ZHTClient.lookupRequest str).serialize =
      some (ZHTClient.lookupRequest str).serialize.length)
    (hbuff : net.generalReceive frame toServer st (ZHTClient.lookupRequest str).serialize maxMsgSize =
      some buff) :
    LookupTruthful net frame toServer st returnStr str ↔
      AnswerHeard st (ZHTClient.lookupRequest str) buff := by
  have hdone := hown.executed
  have hreply : (dataService frame st (ZHTClient.lookupRequest str).serialize).2 =
      some (lookupReply st (ZHTClient.lookupRequest str)) :=
    dataService_of_lookup hown.spare (clean_lookupRequest hdone) rfl
  obtain ⟨m, hpart⟩ : ∃ m, buff = (lookupReply st (ZHTClient.lookupRequest str)).take m := by
    rw [Connection.generalReceive, hdone.replies_eq hown.stale, hreply] at hbuff
    split at hbuff
    · obtain ⟨n, -, rfl⟩ := Option.map_eq_some_iff.mp hbuff
      exact ⟨min n maxMsgSize, by simp⟩
    · cases hbuff
  have hzero : 0 ∉ buff := fun h =>
    zero_notMem_lookupReply st _ (List.mem_of_mem_take (hpart ▸ h))
  rw [lookupTruthful_iff_split hsent hbuff hzero]
  obtain ⟨hshort, hheard⟩ | ⟨value, hst, heq, hheard⟩ :=
    lookupReply_cases st (ZHTClient.lookupRequest str)
  · rw [hheard]
    apply splitTruthful_of_refusal _ hpart
    exact hshort.imp_right fun h => ⟨h.1, hdone, h.2⟩
  · rw [hheard]
    rw [heq] at hpart
    apply splitTruthful_of_value _ hpart
    intro v
    rw [hst, Option.some.injEq]
    exact ⟨fun h => h.2.symm, fun h => ⟨hdone, h.symm⟩⟩

theorem OwnReply.heard (hown : OwnReply net frame toServer str)
    (h : LookupTruthful net frame toServer st returnStr str) :
    LookupHeard net frame toServer st str :=
  fun hsent _ hbuff => ⟨hown, (lookupTruthful_of_ownReply hown hsent hbuff).mp h⟩

end Lookup

end FusionFS
