import FusionFS.Listing
import FusionFS.Lib.CBuffer
import FusionFS.TierPaths

/-!
# What is kept under a key

A file has the address of its owner, with a slash behind it once the file is on the HDD. A directory
has its names between spaces. Here are the functions that read and write the two, with the arrays they
work in.
-/

namespace FusionFS

open CBuffer

/-! ### Addresses -/

namespace Buffered

/-- `real_ip`. `newip` is what its local array holds; `strcat` goes to the end of the string. -/
def realIp (newip ip : Buffer pathMax) : Option (Bool × Buffer pathMax) := do
  let s ← text ip
  if slash ∈ s then
    let newip ← strncpy newip ip (s.takeWhile (· != slash)).length
    let ip ← strncpy ip newip (pathMax - 1)
    let _ ← text ip
    some (true, ip)
  else some (false, ip)

end Buffered

section Addresses

variable {newip marked plain buf buf' : Buffer pathMax} {ip s s' : Bytes} {flag : Bool}

variable (newip) in
/-- What `real_ip` makes of a string with a slash, up to the last call. -/
theorem realIp_copies (hbuf : text buf = some s) (hslash : slash ∈ s) :
    ∃ newip' buf' : Buffer pathMax,
      newip'.val = s.takeWhile (· != slash) ++ newip.val.drop (s.takeWhile (· != slash)).length ∧
      buf'.val = copied newip' (pathMax - 1) ++
        List.replicate (pathMax - 1 - (copied newip' (pathMax - 1)).length) 0 ++
          buf.val.drop (pathMax - 1) ∧
      Buffered.realIp newip buf = (text buf').map fun _ => (true, buf') := by
  obtain ⟨hnul, rest, hval⟩ := text_eq_some_iff.mp hbuf
  set addr := s.takeWhile (· != slash)
  have haddr : s = addr ++ s.dropWhile (· != slash) := List.takeWhile_append_dropWhile.symm
  have hsplit : buf.val = addr ++ (s.dropWhile (· != slash) ++ 0 :: rest) := by
    rw [hval, ← List.append_assoc, ← haddr]
  have hclean : 0 ∉ addr := fun hmem => hnul (List.takeWhile_prefix _ |>.subset hmem)
  have hlen : addr.length ≤ pathMax := by
    rw [← buf.property, hsplit, List.length_append]
    exact Nat.le_add_right _ _
  obtain ⟨newip', hnewip, hnewval⟩ := strncpy_text newip hsplit hclean hlen
  obtain ⟨buf', hcopy, hcopyval⟩ :=
    @strncpy_eq _ _ buf newip' _ (Nat.sub_le pathMax 1) (Nat.sub_le pathMax 1)
  refine ⟨newip', buf', hnewval, hcopyval, ?_⟩
  rw [Buffered.realIp, hbuf]
  simp only [Option.bind_eq_bind, Option.bind_some, if_pos hslash]
  rw [hnewip, Option.bind_some, hcopy, Option.bind_some]
  cases text buf' <;> rfl

variable (newip) in
theorem realIp_plain (hbuf : text buf = some s) (hslash : slash ∉ s) :
    Buffered.realIp newip buf = some (false, buf) := by
  rw [Buffered.realIp, hbuf]
  simp only [Option.bind_eq_bind, Option.bind_some, if_neg hslash]

theorem text_realIp_iff (hmarked : text marked = some (ip ++ [slash])) (hip : slash ∉ ip) :
    ((Buffered.realIp newip marked).bind fun r => text r.2) = some ip ↔
      newip.val[ip.length]? = some 0 := by
  have hcut : (ip ++ [slash]).takeWhile (· != slash) = ip := by
    have hall : ∀ c ∈ ip, (c != slash) = true := by
      intro c hc
      rw [bne_iff_ne]
      exact ne_of_mem_of_not_mem hc hip
    rw [List.takeWhile_append_of_pos hall, List.takeWhile_cons_of_neg (by simp), List.append_nil]
  obtain ⟨newip', buf', hnewip, hval, hcopies⟩ :=
    realIp_copies newip hmarked (List.mem_append_right _ List.mem_cons_self)
  rw [hcut] at hnewip
  have hnul : 0 ∉ ip := fun hmem => (text_eq_some_iff.mp hmarked).1 (List.mem_append_left _ hmem)
  have hlen : ip.length + 1 < pathMax := by
    obtain ⟨-, rest, heq⟩ := text_eq_some_iff.mp hmarked
    have hbytes := congrArg List.length heq
    rw [marked.property] at hbytes
    simp only [List.length_append, List.length_cons, List.length_nil] at hbytes
    omega
  have hres : ((Buffered.realIp newip marked).bind fun r => text r.2) = text buf' := by
    rw [hcopies]
    cases htext : text buf' with
    | none => rfl
    | some s => exact htext
  obtain ⟨c, more, hmore⟩ : ∃ c more, newip.val.drop ip.length = c :: more := by
    apply List.exists_cons_of_ne_nil
    rw [Ne, List.drop_eq_nil_iff, newip.property]
    omega
  have hjunk : newip.val[ip.length]? = some c := by
    rw [← List.head?_drop, hmore, List.head?_cons]
  obtain ⟨room, hroom⟩ : ∃ room, pathMax - 1 - ip.length = room + 1 :=
    ⟨pathMax - 1 - ip.length - 1, by omega⟩
  rw [copied_eq hnewip hnul (by omega), hmore, hroom, List.take_succ_cons] at hval
  rw [hres, hjunk, Option.some.injEq, text_eq_some_iff]
  constructor
  · rintro ⟨-, rest, heq⟩
    by_contra hc
    rw [List.takeWhile_cons_of_pos (by simpa using hc), heq, List.append_assoc, List.append_assoc,
      List.append_cancel_left_eq, List.cons_append, List.cons.injEq] at hval
    exact hc hval.1.symm
  · rintro rfl
    refine ⟨hnul, ?_⟩
    rw [List.takeWhile_cons_of_neg (by simp), List.append_nil, hroom, List.replicate_succ,
      List.append_assoc, List.cons_append] at hval
    exact ⟨_, hval⟩

end Addresses

/-- Whether a stored address is the one of this node, as the callers of `real_ip` find it out. -/
def isLocal (newip res : Buffer pathMax) (myip : Bytes) : Option Bool := do
  let (_, res) ← Buffered.realIp newip res
  let addr ← text res
  some (decide (addr = myip))

/-- The address comes back from its marked form and from its plain one, and decides the same. -/
structure Decodes (newip marked plain : Buffer pathMax) (ip : Bytes) : Prop where
  cut : (Buffered.realIp newip marked).map (fun r => (r.1, text r.2)) = some (true, some ip)
  kept : Buffered.realIp newip plain = some (false, plain)
  sameOwner : ∀ myip, isLocal newip marked myip = isLocal newip plain myip

/-- The codec is right exactly where the local array happens to end the address. -/
theorem addressCodec_iff (newip marked plain : Buffer pathMax) (ip : Bytes) (hip : slash ∉ ip)
    (hmarked : text marked = some (ip ++ [slash])) (hplain : text plain = some ip) :
    Decodes newip marked plain ip ↔ newip.val[ip.length]? = some 0 := by
  rw [← text_realIp_iff hmarked hip]
  have hkept := realIp_plain newip hplain hip
  obtain ⟨newip', buf', -, -, hcopies⟩ :=
    realIp_copies newip hmarked (List.mem_append_right _ List.mem_cons_self)
  constructor
  · intro h
    obtain ⟨⟨flag, buf⟩, hres, hread⟩ := Option.map_eq_some_iff.mp h.cut
    rw [hres]
    exact (Prod.mk.inj hread).2
  · intro h
    obtain ⟨⟨flag, buf⟩, hres, htext⟩ := Option.bind_eq_some_iff.mp h
    have hflag : flag = true := by
      rw [hcopies, Option.map_eq_some_iff] at hres
      obtain ⟨-, -, heq⟩ := hres
      exact (Prod.mk.inj heq).1.symm
    subst hflag
    change text buf = some ip at htext
    refine ⟨?_, hkept, fun myip => ?_⟩
    · rw [hres, Option.map_some, htext]
    · simp only [isLocal, hres, hkept, htext, hplain, Option.bind_eq_bind, Option.bind_some]

/-- An array that begins with these bytes and is zero behind them. -/
def zeroPadded (s : Bytes) (h : s.length ≤ pathMax) : Buffer pathMax :=
  ⟨s ++ List.replicate (pathMax - s.length) 0, by
    rw [List.length_append, List.length_replicate]
    omega⟩

theorem addressCodec_iff_cleared :
    Decodes (zeroPadded [] (by decide)) (zeroPadded (cstr "10.0.0.1/") (by decide))
      (zeroPadded (cstr "10.0.0.1") (by decide)) (cstr "10.0.0.1") ↔
      (zeroPadded [] (by decide)).val[(cstr "10.0.0.1").length]? = some 0 :=
  addressCodec_iff _ _ _ _ (by decide) (by decide +kernel) (by decide +kernel)

/-- What an earlier call has left behind the address becomes part of it. -/
theorem not_addressCodec :
    ¬ Decodes (zeroPadded (cstr "/mnt/ssd/file") (by decide))
        (zeroPadded (cstr "10.0.0.1/") (by decide)) (zeroPadded (cstr "10.0.0.1") (by decide))
        (cstr "10.0.0.1") ∧
      isLocal (zeroPadded (cstr "/mnt/ssd/file") (by decide))
        (zeroPadded (cstr "10.0.0.1/") (by decide)) (cstr "10.0.0.1") = some false := by
  have hlocal : isLocal (zeroPadded (cstr "/mnt/ssd/file") (by decide))
      (zeroPadded (cstr "10.0.0.1/") (by decide)) (cstr "10.0.0.1") = some false := by
    decide +kernel
  have hplain : isLocal (zeroPadded (cstr "/mnt/ssd/file") (by decide))
      (zeroPadded (cstr "10.0.0.1") (by decide)) (cstr "10.0.0.1") = some true := by
    decide +kernel
  refine ⟨fun h => ?_, hlocal⟩
  have hsame := h.sameOwner (cstr "10.0.0.1")
  rw [hlocal, hplain] at hsame
  cases hsame

/-! ### Listings -/

namespace Buffered

def zhtAppend (z : Zht) (key val : Bytes) : Option Zht := do
  let oldval ← strcpy pathMax (zhtValue z key)
  let newval ← strcpy pathMax oldval
  let newval ← strcat pathMax newval val
  let newval ← strcat pathMax newval [space]
  some (zhtUpdate z key newval)

/-- `zht_delete`. `newval` is zeroed, so that `strncpy` leaves a string in it. -/
def zhtDelete (z : Zht) (key val : Bytes) : Option Zht := do
  let oldval ← strcpy pathMax (zhtValue z key)
  let search ← strcpy pathMax [space]
  let search ← strcat pathMax search val
  let search ← strcat pathMax search [space]
  let pch ← strstr oldval search
  let newval ← strcpy pathMax (oldval.take pch)
  let newval ← strcat pathMax newval [space]
  let newval ← strcat pathMax newval (oldval.drop (pch + search.length))
  some (zhtUpdate z key newval)

/-- The loop of `fusion_readdir`. -/
def fusionReaddir (z : Zht) (path : Bytes) : Option (List Bytes) :=
  (strcpy pathMax (zhtValue z (readdirKey path))).map strtok

end Buffered

section Listings

open Delimited

variable {z : Zht} {key x : Bytes} {ws : List Bytes}

theorem zhtAppend_buffered (h : (zhtValue z key ++ x ++ [space]).length < pathMax) :
    Buffered.zhtAppend z key x = some (zhtAppend z key x) := by
  simp only [List.length_append, List.length_singleton] at h
  have hold : (zhtValue z key).length < pathMax := by omega
  have hnew : (zhtValue z key ++ x).length < pathMax := by
    rw [List.length_append]
    omega
  have hall : (zhtValue z key ++ x ++ [space]).length < pathMax := by
    rw [List.length_append, List.length_append]
    exact h
  simp only [Buffered.zhtAppend, strcat, strcpy_of_lt hold, strcpy_of_lt hnew, strcpy_of_lt hall,
    Option.bind_eq_bind, Option.bind_some]
  rfl

theorem zhtDelete_buffered (h : (zhtValue z key).length < pathMax)
    (hfound : strstr (zhtValue z key) ([space] ++ x ++ [space]) ≠ none) :
    Buffered.zhtDelete z key x = zhtDelete z key x := by
  obtain ⟨pch, hpch⟩ := Option.ne_none_iff_exists'.mp hfound
  have hroom := find_add_length_le hpch
  simp only [List.length_append, List.length_singleton] at hroom
  have hone : ([space] : Bytes).length < pathMax := by decide
  have hpart : ([space] ++ x).length < pathMax := by
    rw [List.length_append, List.length_singleton]
    omega
  have hsearch : ([space] ++ x ++ [space]).length < pathMax := by
    rw [List.length_append, List.length_append, List.length_singleton]
    omega
  have hfront : ((zhtValue z key).take pch).length < pathMax :=
    Nat.lt_of_le_of_lt (List.length_take_le' _ _) h
  have hglued : ((zhtValue z key).take pch ++ [space]).length < pathMax := by
    rw [List.length_append, List.length_take, List.length_singleton]
    omega
  have hall : ((zhtValue z key).take pch ++ [space] ++
      (zhtValue z key).drop (pch + ([space] ++ x ++ [space]).length)).length < pathMax := by
    simp only [List.length_append, List.length_take, List.length_drop, List.length_singleton]
    omega
  simp only [Buffered.zhtDelete, zhtDelete, strcat, strcpy_of_lt h, strcpy_of_lt hone,
    strcpy_of_lt hpart, strcpy_of_lt hsearch, strcpy_of_lt hfront, strcpy_of_lt hglued,
    strcpy_of_lt hall, hpch, Option.bind_eq_bind, Option.bind_some]

/-- What the functions do to a value that lists `ws`, whatever the names look like to each other. -/
structure ListsExactly (z : Zht) (key x : Bytes) (ws : List Bytes) : Prop where
  appended : (enc space (ws ++ [x])).length < pathMax →
    Buffered.zhtAppend z key x = some (zhtInsert z key (enc space (ws ++ [x])))
  erased : x ∈ ws →
    Buffered.zhtDelete z key x = some (zhtInsert z key (enc space (ws.erase x)))
  restored : (enc space (ws ++ [x])).length < pathMax → x ∉ ws →
    (Buffered.zhtAppend z key x).bind (fun z' => Buffered.zhtDelete z' key x) = some z
  listed : ∀ path, readdirKey path = key → Buffered.fusionReaddir z path = some ws

theorem zhtAppend_enc (hz : z key = some (enc space ws))
    (hroom : (enc space (ws ++ [x])).length < pathMax) :
    Buffered.zhtAppend z key x = some (zhtInsert z key (enc space (ws ++ [x]))) := by
  have hval : zhtValue z key ++ x ++ [space] = enc space (ws ++ [x]) := by
    rw [zhtValue_of_eq hz, enc_append_singleton]
  rw [zhtAppend_buffered (hval ▸ hroom), zhtAppend, zhtUpdate_eq_insert, hval]

theorem zhtDelete_enc (hz : z key = some (enc space ws)) (hws : ∀ w ∈ ws, space ∉ w) (hx : x ∈ ws)
    (hroom : (enc space ws).length < pathMax) :
    Buffered.zhtDelete z key x = some (zhtInsert z key (enc space (ws.erase x))) := by
  have hval := zhtValue_of_eq hz
  rw [zhtDelete_buffered, zhtDelete_eq hz hws hx]
  · rwa [hval]
  · have hsearch : [space] ++ x ++ [space] = bracket space x := by simp [bracket]
    rw [hval, hsearch, strstr, Ne, find_bracket_enc_eq_none (hws x hx) hws]
    exact not_not_intro hx

theorem listingCodec (z : Zht) (key x : Bytes) (ws : List Bytes)
    (hz : z key = some (enc space ws)) (hws : ∀ w ∈ ws, IsWord space w) (hx : IsWord space x)
    (hroom : (enc space ws).length < pathMax) : ListsExactly z key x ws := by
  have hsep : ∀ w ∈ ws, space ∉ w := fun w hw => (hws w hw).2
  refine ⟨zhtAppend_enc hz, fun hmem => zhtDelete_enc hz hsep hmem hroom, ?_, ?_⟩
  · intro hmore hnew
    have hsep' : ∀ w ∈ ws ++ [x], space ∉ w := by
      intro w hw
      rcases List.mem_append.mp hw with hw | hw
      · exact hsep w hw
      · rw [List.mem_singleton.mp hw]
        exact hx.2
    have hmem : x ∈ ws ++ [x] := List.mem_append_right _ List.mem_cons_self
    have herase : (ws ++ [x]).erase x = ws := by
      rw [List.erase_append_right _ hnew, List.erase_cons_head, List.append_nil]
    calc (Buffered.zhtAppend z key x).bind (fun z' => Buffered.zhtDelete z' key x)
        = Buffered.zhtDelete (zhtInsert z key (enc space (ws ++ [x]))) key x := by
          rw [zhtAppend_enc hz hmore, Option.bind_some]
      _ = some (zhtInsert (zhtInsert z key (enc space (ws ++ [x]))) key (enc space ws)) := by
          rw [zhtDelete_enc zhtInsert_self hsep' hmem hmore, herase]
      _ = some z := by
          rw [zhtInsert, zhtInsert, Function.update_idem, ← hz, Function.update_eq_self]
  · rintro path rfl
    rw [Buffered.fusionReaddir, zhtValue_of_eq hz, strcpy_of_lt hroom, Option.map_some, strtok,
      words_enc hws]

/-- One name is a part of the others. -/
theorem listingCodec_overlapping :
    ListsExactly (zhtInsert zhtInit (cstr "/d/") (enc space [cstr "ab", cstr "b", cstr "bab"]))
      (cstr "/d/") (cstr "b") [cstr "ab", cstr "b", cstr "bab"] :=
  listingCodec _ _ _ _ zhtInsert_self (by decide) (by decide) (by decide)

end Listings

end FusionFS
