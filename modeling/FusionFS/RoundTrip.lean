import FusionFS.Calls

/-!
# When an inserted value can be looked up

Nothing on the wire says where a message ends, and both sides keep 1024 bytes. A value comes back if
every message arrives with one `recv`, the two calls reach the same server, and the stored package, its
two status bytes and a final zero fit into the buffer of the client. The server must have a byte to
spare for the zero behind the status.
-/

namespace FusionFS

open Protobuf

/-! ### Packages on the wire -/

namespace Package

/-- Content without a zero byte that the encoding has room for. -/
def CleanValue : Value → Prop
  | .varint n => 0 < n ∧ n < 2 ^ 31
  | .bytes payload => payload ≠ [] ∧ 0 ∉ payload ∧ payload.length < word

/-- A package that clients send. -/
structure Clean (p : Package) : Prop where
  virtualPath : ∀ v ∈ p.virtualPath, CleanValue (.bytes v)
  realFullPath : ∀ v ∈ p.realFullPath, CleanValue (.bytes v)
  isDir : ∀ b ∈ p.isDir, b = true
  operation : ∀ n ∈ p.operation, 0 < n ∧ n < 2 ^ 31
  replicaNo : ∀ n ∈ p.replicaNo, 0 < n ∧ n < 2 ^ 31

theorem int32Value_of_lt {n : Nat} (h : n < 2 ^ 31) : int32Value n = .varint n := by
  rw [int32Value, if_pos h]

theorem mem_fields {p : Package} {field : Nat × Value} (h : field ∈ p.fields) :
    (∃ v ∈ p.virtualPath, field = (1, .bytes v)) ∨ (∃ v ∈ p.realFullPath, field = (3, .bytes v)) ∨
      (∃ b ∈ p.isDir, field = (4, .varint b.toNat)) ∨ (∃ n ∈ p.operation, field = (8, int32Value n)) ∨
        ∃ n ∈ p.replicaNo, field = (9, int32Value n) := by
  simp only [fields, List.mem_append, Option.mem_toList, Option.map_eq_some_iff, or_assoc] at h
  simpa only [Option.mem_def, eq_comm] using h

/-- What holds of the two strings of a package holds of the strings among its fields. -/
theorem forall_fields {p : Package} {P : Bytes → Prop} (hpath : ∀ v ∈ p.virtualPath, P v)
    (hreal : ∀ v ∈ p.realFullPath, P v) (hdir : ∀ b ∈ p.isDir, b = true)
    (hop : ∀ n ∈ p.operation, 0 < n ∧ n < 2 ^ 31) (hrep : ∀ n ∈ p.replicaNo, 0 < n ∧ n < 2 ^ 31)
    {num : Nat} {v : Value} (hfield : (num, v) ∈ p.fields) :
    0 < num ∧ num < 2 ^ 29 ∧ (∀ n, v = .varint n → 0 < n ∧ n < 2 ^ 31) ∧
      ∀ payload, v = .bytes payload → P payload := by
  rcases mem_fields hfield with ⟨v, hv, heq⟩ | ⟨v, hv, heq⟩ | ⟨b, hb, heq⟩ | ⟨n, hn, heq⟩ | ⟨n, hn, heq⟩
  all_goals
    obtain ⟨rfl, rfl⟩ := Prod.mk.inj heq
    refine ⟨by decide, by decide, ?_, ?_⟩
  · exact fun n => Value.noConfusion
  · rintro payload ⟨⟩
    exact hpath v hv
  · exact fun n => Value.noConfusion
  · rintro payload ⟨⟩
    exact hreal v hv
  · rintro n ⟨⟩
    rw [hdir b hb]
    decide
  · exact fun payload => Value.noConfusion
  · rw [int32Value_of_lt (hop n hn).2]
    rintro n' ⟨⟩
    exact hop n hn
  · rw [int32Value_of_lt (hop n hn).2]
    exact fun payload => Value.noConfusion
  · rw [int32Value_of_lt (hrep n hn).2]
    rintro n' ⟨⟩
    exact hrep n hn
  · rw [int32Value_of_lt (hrep n hn).2]
    exact fun payload => Value.noConfusion

/-- The numbers of a package are positive and its strings those of C, at any length. -/
theorem zerofree_fields {p : Package} (hpath : ∀ v ∈ p.virtualPath, v ≠ [] ∧ 0 ∉ v)
    (hreal : ∀ v ∈ p.realFullPath, v ≠ [] ∧ 0 ∉ v) (hdir : ∀ b ∈ p.isDir, b = true)
    (hop : ∀ n ∈ p.operation, 0 < n ∧ n < 2 ^ 31) (hrep : ∀ n ∈ p.replicaNo, 0 < n ∧ n < 2 ^ 31) :
    ∀ field ∈ p.fields, 0 < field.1 ∧ match field.2 with
      | .varint n => 0 < n
      | .bytes payload => payload ≠ [] ∧ 0 ∉ payload := by
  intro field hfield
  obtain ⟨num, v⟩ := field
  obtain ⟨hpos, -, hnum, hbytes⟩ := forall_fields hpath hreal hdir hop hrep hfield
  cases v with
  | varint n => exact ⟨hpos, (hnum n rfl).1⟩
  | bytes payload => exact ⟨hpos, hbytes payload rfl⟩

theorem Clean.field {p : Package} (h : p.Clean) {num : Nat} {v : Value} (hfield : (num, v) ∈ p.fields) :
    0 < num ∧ num < 2 ^ 29 ∧ CleanValue v := by
  obtain ⟨hpos, hlt, hnum, hbytes⟩ := forall_fields h.virtualPath h.realFullPath h.isDir h.operation
    h.replicaNo hfield
  cases v with
  | varint n => exact ⟨hpos, hlt, hnum n rfl⟩
  | bytes payload => exact ⟨hpos, hlt, hbytes payload rfl⟩

theorem Clean.zero_notMem_serialize {p : Package} (h : p.Clean) : 0 ∉ p.serialize := by
  apply zero_notMem_putFields
  apply zerofree_fields
  · exact fun v hv => ⟨(h.virtualPath v hv).1, (h.virtualPath v hv).2.1⟩
  · exact fun v hv => ⟨(h.realFullPath v hv).1, (h.realFullPath v hv).2.1⟩
  · exact h.isDir
  · exact h.operation
  · exact h.replicaNo

theorem Clean.fits {p : Package} (h : p.Clean) : ∀ field ∈ p.fields, Fits field := by
  have hroom : 2 ^ 31 < 128 ^ maxVarint := by decide
  intro ⟨num, v⟩ hfield
  obtain ⟨hpos, hnum, hv⟩ := h.field hfield
  cases v with
  | varint n => exact ⟨hpos, hnum, hv.2.trans hroom⟩
  | bytes payload => exact ⟨hpos, hnum, hv.2.2⟩

theorem foldl_fields {p : Package} (hop : ∀ n ∈ p.operation, n < 2 ^ 31)
    (hrep : ∀ n ∈ p.replicaNo, n < 2 ^ 31) : p.fields.foldl setField empty = p := by
  have hint : ∀ n : Nat, n < 2 ^ 31 → n % word = n := fun n hn =>
    Nat.mod_eq_of_lt (hn.trans (by decide))
  have hoperation : ∀ q, ((p.operation.map fun v => (8, int32Value v)).toList).foldl setField q
      = { q with operation := p.operation <|> q.operation } := by
    intro q
    cases hp : p.operation with
    | none => rfl
    | some n =>
        have hlt := hop n hp
        simp [setField, int32Value_of_lt hlt, hint n hlt]
  have hreplicaNo : ∀ q, ((p.replicaNo.map fun v => (9, int32Value v)).toList).foldl setField q
      = { q with replicaNo := p.replicaNo <|> q.replicaNo } := by
    intro q
    cases hp : p.replicaNo with
    | none => rfl
    | some n =>
        have hlt := hrep n hp
        simp [setField, int32Value_of_lt hlt, hint n hlt]
  rw [fields, List.foldl_append, List.foldl_append, List.foldl_append, List.foldl_append, hreplicaNo,
    hoperation]
  obtain ⟨virtualPath, realFullPath, isDir, operation, replicaNo⟩ := p
  cases virtualPath <;> cases realFullPath <;> cases isDir <;> simp [setField, empty]

theorem Clean.foldl_fields {p : Package} (h : p.Clean) : p.fields.foldl setField empty = p :=
  Package.foldl_fields (fun n hn => (h.operation n hn).2) fun n hn => (h.replicaNo n hn).2

/-- What a package serializes to parses as the package, whatever zeros come behind. -/
theorem Clean.parse_serialize {p : Package} (h : p.Clean) {tail : Bytes}
    (htail : tail = [] ∨ tail.head? = some 0) : parse (p.serialize ++ tail) = p := by
  have hfuel : p.fields.length < (p.serialize ++ tail).length + 1 := by
    have := length_le_length_putFields p.fields
    rw [serialize, List.length_append]
    omega
  rw [parse, serialize] at *
  rw [readFields_putFields setField h.fits htail hfuel, h.foldl_fields]

theorem head?_serialize {p : Package} {key : Bytes} (h : p.virtualPath = some key) :
    p.serialize.head? = some 10 := by
  simp [serialize, putFields, fields, h, putField, putVarint, maxVarint]

end Package

open Package

/-! ### The server gets a whole request -/

/-- A key or a value that is not too long for the encoding. -/
structure CleanEntry (key value : Bytes) : Prop where
  key : CleanValue (.bytes key)
  notMem : 0 ∉ value
  length_lt : value.length < word

theorem mem_realFullPath_insertPackage {key value v : Bytes}
    (hv : v ∈ (insertPackage key value).realFullPath) : v = value ∧ value ≠ [] := by
  by_cases hvalue : value = []
  · simp [insertPackage, hvalue] at hv
  · rw [insertPackage, if_neg hvalue] at hv
    exact ⟨(Option.some.inj hv).symm, hvalue⟩

theorem CleanEntry.insertPackage {key value : Bytes} (h : CleanEntry key value) :
    (insertPackage key value).Clean where
  virtualPath v hv := by
    obtain rfl := Option.some.inj hv
    exact h.key
  realFullPath v hv := by
    obtain ⟨rfl, hvalue⟩ := mem_realFullPath_insertPackage hv
    exact ⟨hvalue, h.notMem, h.length_lt⟩
  isDir b hb := (Option.some.inj hb).symm
  operation n hn := by
    obtain rfl := Option.some.inj hn
    decide
  replicaNo n hn := by
    obtain rfl := Option.some.inj hn
    decide

theorem clean_lookupPackage {key : Bytes} (h : CleanValue (.bytes key)) :
    (lookupPackage key).Clean where
  virtualPath v hv := by
    obtain rfl := Option.some.inj hv
    exact h
  realFullPath v hv := nomatch hv
  isDir b hb := (Option.some.inj hb).symm
  operation n hn := by
    obtain rfl := Option.some.inj hn
    decide
  replicaNo n hn := by
    obtain rfl := Option.some.inj hn
    decide

theorem clean_removePackage {key : Bytes} (h : CleanValue (.bytes key)) : (removePackage key).Clean where
  virtualPath v hv := by
    obtain rfl := Option.some.inj hv
    exact h
  realFullPath v hv := nomatch hv
  isDir b hb := nomatch hb
  operation n hn := by
    obtain rfl := Option.some.inj hn
    decide
  replicaNo n hn := by
    obtain rfl := Option.some.inj hn
    decide

theorem Package.Clean.parse_received {p : Package} (h : p.Clean) :
    parse (p.serialize ++ List.replicate (maxMsgSize - p.serialize.length) 0) = p := by
  refine h.parse_serialize ?_
  cases maxMsgSize - p.serialize.length with
  | zero => exact .inl rfl
  | succ n => exact .inr rfl

theorem dataService_of_insert (frame : Frame) (st : Store) {p : Package} (hp : p.Clean)
    (hop : p.op = 3) (hkey : p.virtualpath ≠ []) : dataService frame st p.serialize =
      (Function.update st p.virtualpath (some p.serialize), some (int32Bytes 0)) := by
  simp only [dataService, hp.parse_received, hop, if_neg hkey, hbInsert]

theorem dataService_insertPackage (frame : Frame) (st : Store) {key value : Bytes}
    (h : CleanEntry key value) : dataService frame st (insertPackage key value).serialize
      = (Function.update st key (some (insertPackage key value).serialize), some (int32Bytes 0)) :=
  dataService_of_insert frame st h.insertPackage rfl h.key.1

/-- A lookup of a stored package finds its bytes behind the status of success. -/
theorem dataService_lookupPackage {frame : Frame} (hspare : frame.Spare) {st : Store} {key : Bytes}
    {p : Package} (hkey : CleanValue (.bytes key)) (hst : st key = some p.serialize) (hp : p.Clean)
    (hpath : p.virtualPath = some key) :
    dataService frame st (lookupPackage key).serialize = (st, some (cstr "00" ++ p.serialize)) := by
  have hne : p.serialize ≠ cstr "Empty" := by
    intro heq
    have hhead := head?_serialize hpath
    rw [heq] at hhead
    exact absurd hhead (by decide)
  have hop : (lookupPackage key).op = 1 := rfl
  have hvirtual : (lookupPackage key).virtualpath = key := rfl
  have hclean : cString (statusBuff 0 ++ p.serialize) = cstr "00" ++ p.serialize := by
    refine cString_eq_self.mpr ?_
    rw [List.mem_append, not_or]
    exact ⟨by decide, hp.zero_notMem_serialize⟩
  simp only [dataService, (clean_lookupPackage hkey).parse_received, hop, hvirtual, if_neg hkey.1,
    hbLookup, hst, Option.getD_some, if_neg hne, hspare.sAllInOne_eq, hclean]

/-! ### The calls -/

section Calls

variable {frame : Frame} {size : Nat} {dest : HostEntity} {key value : Bytes} {p : Package}
  {servers : HostEntity → Store}

theorem exchange_of_whole {socket : Socket size} (hdest : socket.dest = some dest) (hp : p.Clean)
    (hwhole : socket.toServer.chunks p.serialize = [p.serialize]) :
    exchange (storeServer frame) socket p.serialize servers =
      some (Function.update servers dest (dataService frame (servers dest) p.serialize).1,
        (dataService frame (servers dest) p.serialize).2.toList) := by
  simp only [exchange, hdest, storeServer, Option.map_some, cString_eq_self.mpr hp.zero_notMem_serialize,
    serve, hwhole, List.foldl_cons, List.foldl_nil, List.nil_append]

/-- What is stored under a key after an insert. -/
def stored (dest : HostEntity) (key value : Bytes) (servers : HostEntity → Store) :
    HostEntity → Store :=
  Function.update servers dest
    (Function.update (servers dest) key (some (insertPackage key value).serialize))

theorem length_int32Bytes (n : Int) : (int32Bytes n).length = 4 := by
  rw [int32Bytes, List.length_map, List.length_range]

theorem cZhtInsert2_eq (socket : Socket 4) (hdest : socket.dest = some dest)
    (hunread : socket.unread = []) (junk : Bytes) (h : CleanEntry key value)
    (hrequest : socket.toServer.chunks (insertPackage key value).serialize
      = [(insertPackage key value).serialize])
    (hreply : socket.toClient.chunks (int32Bytes 0) = [int32Bytes 0]) :
    cZhtInsert2 (storeServer frame) socket junk key value servers
      = some ⟨stored dest key value servers, [int32Bytes 0], 0⟩ := by
  have hrecv : socket.received [int32Bytes 0] = some (int32Bytes 0) := by
    rw [Socket.received, hdest, Option.isSome_some, if_pos rfl, hunread, recv, List.flatten_cons,
      List.nil_append, List.flatten_singleton, hreply, List.head?_cons]
  have hret : readInt32 ((int32Bytes 0 ++ junk).take 4) = 0 := by
    rw [← length_int32Bytes 0, List.take_left]
    decide
  rw [cZhtInsert2, if_neg h.key.1, statusCall, exchange_of_whole hdest h.insertPackage hrequest,
    dataService_insertPackage frame _ h]
  simp only [Option.toList_some, hrecv, Option.bind_eq_bind, Option.bind_some, hret, stored]

theorem cZhtLookup2_eq (socket : Socket maxMsgSize) (hdest : socket.dest = some dest)
    (hunread : socket.unread = []) (hspare : frame.Spare) (hkey : CleanValue (.bytes key))
    (hst : servers dest key = some p.serialize) (hp : p.Clean) (hpath : p.virtualPath = some key)
    (hrequest : socket.toServer.chunks (lookupPackage key).serialize = [(lookupPackage key).serialize])
    (hreply : recv socket.toClient [cstr "00" ++ p.serialize]
      = some ((cstr "00" ++ p.serialize).take maxMsgSize)) :
    cZhtLookup2 (storeServer frame) socket key servers =
      if p.serialize.length + 2 < maxMsgSize then
        some ⟨servers, [cstr "00" ++ p.serialize], 0, p.realfullpath⟩
      else none := by
  have hlookup := clean_lookupPackage hkey
  have hsent : (cString (lookupPackage key).serialize).length = (lookupPackage key).serialize.length :=
    by rw [cString_eq_self.mpr hlookup.zero_notMem_serialize]
  have hzero : (0 : UInt8) ∉ cstr "00" ++ p.serialize := by
    rw [List.mem_append, not_or]
    exact ⟨by decide, hp.zero_notMem_serialize⟩
  have hlen : (cstr "00" ++ p.serialize).length = p.serialize.length + 2 := by
    rw [List.length_append, Nat.add_comm]
    rfl
  have hrecv : socket.received [cstr "00" ++ p.serialize] =
      some ((cstr "00" ++ p.serialize).take maxMsgSize) := by
    rw [Socket.received, hdest, Option.isSome_some, if_pos rfl, hunread, ← hreply, recv, recv,
      List.flatten_cons, List.nil_append]
  rw [cZhtLookup2, if_neg hkey.1]
  simp only [exchange_of_whole hdest hlookup hrequest, dataService_lookupPackage hspare hkey hst hp hpath,
    Function.update_eq_self, Option.toList_some, hdest, hsent, hrecv, reduceCtorEq, false_or,
    Option.bind_eq_bind, Option.bind_some, ne_eq, not_true_eq_false, if_false]
  by_cases hfits : p.serialize.length + 2 < maxMsgSize
  · have htake : (cstr "00" ++ p.serialize).take maxMsgSize = cstr "00" ++ p.serialize :=
      List.take_of_length_le (by omega)
    have hstring : receivedString (cstr "00" ++ p.serialize) = some (cstr "00" ++ p.serialize) := by
      rw [receivedString, if_pos (.inl (by omega)), cString_eq_self.mpr hzero]
    have hstatus : atoi ((cstr "00" ++ p.serialize).take 2) = 0 := by
      rw [show 2 = (cstr "00").length from rfl, List.take_left]
      decide
    have hrest : (cstr "00" ++ p.serialize).drop 2 = p.serialize := by
      rw [show 2 = (cstr "00").length from rfl, List.drop_left]
    have hparse := hp.parse_serialize (.inl rfl)
    rw [List.append_nil] at hparse
    rw [if_pos hfits, htake, hstring, Option.bind_some, if_neg (by omega), hstatus, hrest, hparse]
  · have htake : ((cstr "00" ++ p.serialize).take maxMsgSize).length = maxMsgSize := by
      rw [List.length_take, hlen]
      omega
    have hover : receivedString ((cstr "00" ++ p.serialize).take maxMsgSize) = none := by
      rw [receivedString, if_neg]
      rintro (hlt | hmem)
      · omega
      · exact hzero (List.mem_of_mem_take hmem)
    rw [if_neg hfits, hover, Option.bind_none]

/-- A lookup of a key that the server does not have. -/
theorem dataService_lookup_missing (hspare : frame.Spare) {st : Store} (hkey : CleanValue (.bytes key))
    (hst : st key = none) :
    dataService frame st (lookupPackage key).serialize = (st, some (cstr "-2Empty")) := by
  have hop : (lookupPackage key).op = 1 := rfl
  have hvirtual : (lookupPackage key).virtualpath = key := rfl
  have hreply : cString (statusBuff (-2) ++ cstr "Empty") = cstr "-2Empty" := by decide
  simp only [dataService, (clean_lookupPackage hkey).parse_received, hop, hvirtual, if_neg hkey.1,
    hbLookup, hst, Option.getD_none, if_true, hspare.sAllInOne_eq, hreply]

theorem dataService_removePackage (st : Store) (hkey : CleanValue (.bytes key)) :
    dataService frame st (removePackage key).serialize = (Function.update st key none,
      some (int32Bytes (if (st key).isSome then 0 else -2))) := by
  have hop : (removePackage key).op = 2 := rfl
  have hvirtual : (removePackage key).virtualpath = key := rfl
  simp only [dataService, (clean_removePackage hkey).parse_received, hop, hvirtual, if_neg hkey.1,
    hbRemove]

end Calls

/-! ### Split messages -/

/-- The first `recv` gets up to `k` bytes, and every later one a single byte. -/
def firstUpTo {size : Nat} (k : Nat) (hpos : 0 < k) (hle : k ≤ size) : Segmentation size where
  chunks stream := if stream = [] then [] else stream.take k :: (stream.drop k).map fun b => [b]
  flatten_chunks stream := by
    split
    · next hnil => rw [hnil, List.flatten_nil]
    · rw [List.flatten_cons, ← List.flatMap_def, List.flatMap_singleton', List.take_append_drop]
  ne_nil stream chunk hchunk := by
    split at hchunk
    · exact absurd hchunk List.not_mem_nil
    · next hne =>
      rcases List.mem_cons.mp hchunk with rfl | hrest
      · simp [hne, hpos.ne']
      · obtain ⟨b, -, rfl⟩ := List.mem_map.mp hrest
        exact List.cons_ne_nil _ _
  length_le stream chunk hchunk := by
    split at hchunk
    · exact absurd hchunk List.not_mem_nil
    · rcases List.mem_cons.mp hchunk with rfl | hrest
      · exact (List.length_take_le _ _).trans hle
      · obtain ⟨b, -, rfl⟩ := List.mem_map.mp hrest
        exact hpos.trans_le hle

/-- A single byte in a zeroed buffer never names an operation. -/
theorem op_parse_byte (b : UInt8) : (parse (b :: List.replicate (maxMsgSize - 1) 0)).op = 0 := by
  have hall : ∀ n < 256, (parse (UInt8.ofNat n :: List.replicate (maxMsgSize - 1) 0)).op = 0 := by
    decide +kernel
  have := hall b.toNat b.toNat_lt
  rwa [UInt8.ofNat_toNat] at this

/-- A request that arrives byte by byte is lost, whatever it asks for. -/
theorem serve_bytewise (frame : Frame) (st : Store) (request : Bytes) :
    serve frame (firstUpTo 1 Nat.one_pos (by decide)) st request = (st, []) := by
  have hbyte : ∀ b : UInt8, dataService frame st [b] = (st, none) := by
    intro b
    have hop := op_parse_byte b
    simp only [dataService, List.singleton_append, List.length_singleton, hop]
  have hchunks : (firstUpTo 1 Nat.one_pos (by decide) : Segmentation maxMsgSize).chunks request
      = request.map fun b => [b] := by
    cases request with
    | nil => rfl
    | cons b rest => rfl
  have hfold : ∀ bytes : Bytes, (bytes.map fun b => [b]).foldl (fun s chunk =>
      ((dataService frame s.1 chunk).1, s.2 ++ (dataService frame s.1 chunk).2.toList))
        (st, ([] : List Bytes)) = (st, []) := by
    intro bytes
    induction bytes with
    | nil => rfl
    | cons b bytes ih =>
        rw [List.map_cons, List.foldl_cons, hbyte]
        exact ih
  rw [serve, hchunks]
  exact hfold request

theorem recv_nil {size : Nat} (toClient : Segmentation size) : recv toClient [] = none := by
  rw [recv, List.flatten_nil, toClient.chunks_nil, List.head?_nil]

/-- Nobody answers such a request, and the insert waits forever. -/
theorem cZhtInsert2_bytewise {frame : Frame} {socket : Socket 4} {key : Bytes} (junk value : Bytes)
    (servers : HostEntity → Store) (hkey : key ≠ []) (hdest : socket.dest.isSome)
    (hunread : socket.unread = [])
    (hsplit : socket.toServer = firstUpTo 1 Nat.one_pos (by decide)) :
    cZhtInsert2 (storeServer frame) socket junk key value servers = none := by
  obtain ⟨dest, hdest⟩ := Option.isSome_iff_exists.mp hdest
  have hsilent : recv socket.toClient [[]] = none := recv_nil socket.toClient
  simp only [cZhtInsert2, if_neg hkey, statusCall, exchange, hdest, storeServer, hsplit, serve_bytewise,
    Socket.received, hunread, Option.isSome_some, if_true, hsilent, Option.map_some,
    Option.bind_eq_bind, Option.bind_some, Option.bind_none]

/-! ### The round trip -/

/-- Whatever the servers hold, an insert succeeds, and later lookups of the key return the value as
long as nobody else has changed it. Each request gets one reply. -/
def RoundTrip (frame : Frame) (socket : Socket 4) (socket' : Socket maxMsgSize)
    (key value : Bytes) : Prop :=
  ∀ (junk : Bytes) (servers : HostEntity → Store),
    ∃ o, cZhtInsert2 (storeServer frame) socket junk key value servers = some o ∧ o.result = 0 ∧
      o.replies.length = 1 ∧ ∀ later : HostEntity → Store,
        (∀ dest, later dest key = o.servers dest key) →
          ∃ o', cZhtLookup2 (storeServer frame) socket' key later = some o' ∧
            o'.result = (0, value) ∧ o'.replies.length = 1

/-- Every message of a round trip arrives with one `recv`, as far as it fits. -/
structure Whole (toServer toServer' : Segmentation maxMsgSize) (toClient : Segmentation 4)
    (toClient' : Segmentation maxMsgSize) (key value : Bytes) : Prop where
  insert : toServer.chunks (insertPackage key value).serialize
    = [(insertPackage key value).serialize]
  inserted : toClient.chunks (int32Bytes 0) = [int32Bytes 0]
  lookup : toServer'.chunks (lookupPackage key).serialize = [(lookupPackage key).serialize]
  found : recv toClient' [cstr "00" ++ (insertPackage key value).serialize]
    = some ((cstr "00" ++ (insertPackage key value).serialize).take maxMsgSize)

theorem realfullpath_insertPackage (key value : Bytes) :
    (insertPackage key value).realfullpath = value := by
  by_cases hvalue : value = [] <;> simp [realfullpath, insertPackage, hvalue]

theorem cleanEntry_of_length {key value : Bytes} (hkey : key ≠ []) (hkey0 : 0 ∉ key)
    (hvalue0 : 0 ∉ value) (hlen : (insertPackage key value).serialize.length ≤ maxMsgSize) :
    CleanEntry key value := by
  have hsize : maxMsgSize < word := by decide
  have hkeyMem : (1, Value.bytes key) ∈ (insertPackage key value).fields := by
    simp [fields, insertPackage]
  have hkeyLen : key.length ≤ (insertPackage key value).serialize.length := length_le_of_mem hkeyMem
  have hvalueLen : value.length ≤ (insertPackage key value).serialize.length := by
    by_cases hvalue : value = []
    · rw [hvalue]
      exact Nat.zero_le _
    · have hvalueMem : (3, Value.bytes value) ∈ (insertPackage key value).fields := by
        simp [fields, insertPackage, hvalue]
      exact length_le_of_mem hvalueMem
  exact ⟨⟨hkey, hkey0, by omega⟩, hvalue0, by omega⟩

section

variable {frame : Frame} {members : List HostEntity} {client client' : Client} {made made' : Int}
  {toServer toServer' : Segmentation maxMsgSize} {toClient : Segmentation 4}
  {toClient' : Segmentation maxMsgSize} {key value : Bytes}

theorem insert_unconnected {socket : Socket 4} (junk : Bytes) (servers : HostEntity → Store)
    (hkey : key ≠ []) (hdest : socket.dest = none) : ∃ result,
      cZhtInsert2 (storeServer frame) socket junk key value servers = some ⟨servers, [], result⟩ := by
  have hnobody : exchange (storeServer frame) socket (insertPackage key value).serialize servers =
      some (servers, []) := by
    rw [exchange, hdest]
  refine ⟨readInt32 (([] ++ junk).take 4), ?_⟩
  rw [cZhtInsert2, if_neg hkey, statusCall, hnobody]
  simp only [Socket.received, hdest, Option.isSome_none, Bool.false_eq_true, if_false,
    Option.bind_eq_bind, Option.bind_some]

theorem lookup_unconnected {socket : Socket maxMsgSize} (servers : HostEntity → Store)
    (hkey : key ≠ []) (hdest : socket.dest = none) :
    cZhtLookup2 (storeServer frame) socket key servers = some ⟨servers, [], -1, []⟩ := by
  simp only [cZhtLookup2, if_neg hkey, exchange, hdest, Option.bind_eq_bind, Option.bind_some, true_or,
    if_true]

theorem prefix_of_recv {size : Nat} {toClient : Segmentation size} {replies : List Bytes}
    {received : Bytes} (h : recv toClient replies = some received) : received <+: replies.flatten := by
  obtain ⟨rest, hchunks⟩ := List.head?_eq_some_iff.mp h
  rw [← toClient.flatten_chunks replies.flatten, hchunks, List.flatten_cons]
  exact List.prefix_append _ _

/-- However its reply is split, a lookup of a missing key does not succeed. -/
theorem result_of_missing {socket : Socket maxMsgSize} {dest : HostEntity}
    {servers : HostEntity → Store} {o : Outcome Store (Int × Bytes)} (hdest : socket.dest = some dest)
    (hunread : socket.unread = []) (hspare : frame.Spare) (hkey : CleanValue (.bytes key))
    (hst : servers dest key = none)
    (hrequest : socket.toServer.chunks (lookupPackage key).serialize = [(lookupPackage key).serialize])
    (h : cZhtLookup2 (storeServer frame) socket key servers = some o) : o.result.1 = -2 := by
  have hlookup := clean_lookupPackage hkey
  have hsent : (cString (lookupPackage key).serialize).length = (lookupPackage key).serialize.length :=
    by rw [cString_eq_self.mpr hlookup.zero_notMem_serialize]
  rw [cZhtLookup2, if_neg hkey.1] at h
  simp only [exchange_of_whole hdest hlookup hrequest, dataService_lookup_missing hspare hkey hst,
    Function.update_eq_self, Option.toList_some, hdest, hsent, reduceCtorEq, false_or,
    Option.bind_eq_bind, Option.bind_some, ne_eq, not_true_eq_false, if_false] at h
  obtain ⟨received, hreceived, h⟩ := Option.bind_eq_some_iff.mp h
  obtain ⟨sRecv, hstring, h⟩ := Option.bind_eq_some_iff.mp h
  rw [Socket.received, hdest, Option.isSome_some, if_pos rfl, hunread] at hreceived
  have hpart : received <+: cstr "-2Empty" := prefix_of_recv hreceived
  have hclean : 0 ∉ received := by
    intro hzero
    exact absurd (hpart.subset hzero) (by decide)
  rw [receivedString, cString_eq_self.mpr hclean] at hstring
  obtain rfl : received = sRecv := by
    split at hstring
    · exact Option.some.inj hstring
    · cases hstring
  split at h
  · cases h
  · next hlong =>
    have hstatus : received.take 2 = cstr "-2" := by
      rw [List.prefix_iff_eq_take.mp hpart, List.take_take, Nat.min_eq_left (by omega)]
      rfl
    obtain rfl := Option.some.inj h
    change atoi (received.take 2) = -2
    rw [hstatus]
    decide

/-- **What is inserted can be looked up**, by any client and if no message is split and nothing is
left on the sockets, exactly if the two calls reach the same server and the package fits with its
status. -/
theorem roundTrip_iff (hspare : frame.Spare) (hkey : key ≠ []) (hkey0 : 0 ∉ key) (hvalue0 : 0 ∉ value)
    (hwhole : Whole toServer toServer' toClient toClient' key value) :
    RoundTrip frame
        (client.socket members (insertPackage key value).serialize made [] toServer toClient)
        (client'.socket members (lookupPackage key).serialize made' [] toServer' toClient') key value ↔
      (insertPackage key value).serialize.length + 2 < maxMsgSize ∧
        ∃ dest, client.reached members (insertPackage key value).serialize made = some dest ∧
          client'.reached members (lookupPackage key).serialize made' = some dest := by
  have hlen : (insertPackage key value).serialize.length ≤ maxMsgSize :=
    toServer.length_le _ _ (by rw [hwhole.insert]; exact List.mem_singleton_self _)
  have hentry := cleanEntry_of_length hkey hkey0 hvalue0 hlen
  constructor
  · intro h
    obtain ⟨o, ho, -, hone, hfind⟩ := h [] fun _ _ => none
    -- a reply tells that the insert is connected
    cases hdest : client.reached members (insertPackage key value).serialize made with
    | none =>
        have hnobody : (client.socket members (insertPackage key value).serialize made [] toServer
            toClient).dest = none := hdest
        obtain ⟨result, hrun⟩ := insert_unconnected [] (fun _ _ => none) hkey hnobody
        obtain rfl := Option.some.inj (hrun.symm.trans ho)
        cases hone
    | some dest =>
        rw [cZhtInsert2_eq _ hdest rfl [] hentry hwhole.insert hwhole.inserted] at ho
        obtain rfl := Option.some.inj ho
        obtain ⟨o', ho', hresult, -⟩ := hfind _ fun _ => rfl
        cases hdest' : client'.reached members (lookupPackage key).serialize made' with
        | none =>
            rw [lookup_unconnected _ hkey hdest'] at ho'
            obtain rfl := Option.some.inj ho'
            cases congrArg Prod.fst hresult
        | some dest' =>
            by_cases hsame : dest' = dest
            · subst hsame
              have hstored : stored dest' key value (fun _ _ => none) dest' key =
                  some (insertPackage key value).serialize := by
                rw [stored, Function.update_self, Function.update_self]
              rw [cZhtLookup2_eq _ hdest' rfl hspare hentry.key hstored hentry.insertPackage rfl
                hwhole.lookup hwhole.found] at ho'
              split at ho'
              · next hfits => exact ⟨hfits, dest', rfl, rfl⟩
              · cases ho'
            · -- the other server has never seen the key
              have hmissing : stored dest key value (fun _ _ => none) dest' key = none := by
                rw [stored, Function.update_of_ne hsame]
              have hstatus := result_of_missing hdest' rfl hspare hentry.key hmissing hwhole.lookup ho'
              rw [hresult] at hstatus
              cases hstatus
  · rintro ⟨hfits, dest, hdest, hdest'⟩ junk servers
    refine ⟨_, cZhtInsert2_eq _ hdest rfl junk hentry hwhole.insert hwhole.inserted, rfl, rfl, ?_⟩
    intro later hlater
    have hstored : later dest key = some (insertPackage key value).serialize := by
      rw [hlater]
      dsimp only
      rw [stored, Function.update_self, Function.update_self]
    have hlookup := cZhtLookup2_eq
      (client'.socket members (lookupPackage key).serialize made' [] toServer' toClient') hdest' rfl
      hspare hentry.key hstored hentry.insertPackage rfl hwhole.lookup hwhole.found
    rw [if_pos hfits, realfullpath_insertPackage] at hlookup
    exact ⟨_, hlookup, rfl, rfl⟩

end

/-- Two hosts, two clients that have not called yet, and messages that arrive as they are sent. -/
theorem roundTrip_short : RoundTrip .padded
    (Client.init.socket [⟨cstr "n1", 50000⟩, ⟨cstr "n2", 50000⟩]
      (insertPackage (cstr "dir/") (cstr "f ")).serialize 3 []
      (firstUpTo maxMsgSize maxMsgSize_pos le_rfl) (firstUpTo 4 (by decide) le_rfl))
    (Client.init.socket [⟨cstr "n1", 50000⟩, ⟨cstr "n2", 50000⟩]
      (lookupPackage (cstr "dir/")).serialize 4 []
      (firstUpTo maxMsgSize maxMsgSize_pos le_rfl) (firstUpTo maxMsgSize maxMsgSize_pos le_rfl))
    (cstr "dir/") (cstr "f ") :=
  (roundTrip_iff Frame.spare_padded (by decide) (by decide) (by decide)
    ⟨by decide, by decide, by decide, by decide⟩).mpr
      ⟨by decide, ⟨cstr "n1", 50000⟩, by decide +kernel, by decide +kernel⟩

/-- A split request is lost, at any length. -/
theorem not_roundTrip_of_any_split :
    ¬∀ (frame : Frame) (members : List HostEntity) (client client' : Client) (made made' : Int)
      (toServer toServer' : Segmentation maxMsgSize) (toClient : Segmentation 4)
      (toClient' : Segmentation maxMsgSize) (key value : Bytes), frame.Spare →
        key ≠ [] → 0 ∉ key → 0 ∉ value → (insertPackage key value).serialize.length < 64 * 1024 →
          (client.reached members (insertPackage key value).serialize made).isSome →
            RoundTrip frame
              (client.socket members (insertPackage key value).serialize made [] toServer toClient)
              (client'.socket members (lookupPackage key).serialize made' [] toServer' toClient')
              key value := by
  intro hall
  have hreached : (Client.init.reached [⟨cstr "n1", 50000⟩, ⟨cstr "n2", 50000⟩]
      (insertPackage (cstr "dir/") (cstr "f ")).serialize 3).isSome := by decide +kernel
  obtain ⟨o, ho, -⟩ := hall .padded [⟨cstr "n1", 50000⟩, ⟨cstr "n2", 50000⟩] .init .init 3 4
    (firstUpTo 1 Nat.one_pos (by decide)) (firstUpTo maxMsgSize maxMsgSize_pos le_rfl)
    (firstUpTo 4 (by decide) le_rfl) (firstUpTo maxMsgSize maxMsgSize_pos le_rfl) (cstr "dir/")
    (cstr "f ") Frame.spare_padded (by decide) (by decide) (by decide) (by decide) hreached []
    fun _ _ => none
  rw [cZhtInsert2_bytewise [] (cstr "f ") _ (by decide) hreached rfl rfl] at ho
  cases ho

end FusionFS
