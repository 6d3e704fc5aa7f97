import FusionFS.Lib.InputStream
import FusionFS.Wire
import Mathlib.Data.Set.List

/-!
# The list of members

`getMembership` reads hosts and ports with `>>` and looks at the end of the file before it adds the
pair it has read.
-/

namespace FusionFS.Membership

open InputStream

/-- A `HostEntity` as the list is made of them. -/
structure Member (Addr : Type) where
  host : Bytes
  port : Int
  si : Addr × Int
  valid : Bool
  sock : Int
  deriving DecidableEq

variable {Addr : Type}

/-- An entry with its address and its port in 16 bits. -/
def member (host : Bytes) (port : Int) (address : Addr) : Member Addr :=
  ⟨host, port, (address, port % 2 ^ 16), true, -1⟩

/-- The loop of `getMembership`. A host that is not found is a null pointer that is followed. -/
def memberLoop (gethostbyname : Bytes → Option Addr) : Nat → IStream → Bytes → Int → Addr →
    List (Member Addr) → Option (List (Member Addr))
  | 0, _, _, _, _, _ => none
  | fuel + 1, input, host, port, address, hostList =>
      if input.eof then some hostList
      else do
        let hostList := hostList ++ [member host port address]
        let (host, input) := getString input host
        let (port, input) := getInt input port
        let address ← gethostbyname host
        memberLoop gethostbyname fuel input host port address hostList

/-- `getMembership` on a file that can be opened. Each round takes at least one byte or sees the end. -/
def getMembership (gethostbyname : Bytes → Option Addr) (port : Int) (content : Bytes) :
    Option (List (Member Addr)) := do
  let (host, input) := getString (opened content) []
  let (port, input) := getInt input port
  let address ← gethostbyname host
  memberLoop gethostbyname (content.length + 2) input host port address []

/-! ### Files with entries -/

/-- A host and a port with white space between them. -/
structure Entry where
  host : Bytes
  gap : Bytes
  port : Bytes
  host_ne : host ≠ []
  host_word : ∀ c ∈ host, isSpace c = false
  gap_ne : gap ≠ []
  gap_spaces : Spaces gap
  port_ne : port ≠ []
  port_digits : ∀ c ∈ port, isDigit c = true
  port_lt : decimal port < 2 ^ 31

def Entry.text (e : Entry) : Bytes := e.host ++ (e.gap ++ e.port)

/-- White space between two entries, or in front of all. -/
structure MemberFile where
  lead : Bytes
  lead_spaces : Spaces lead
  first : Entry
  rest : List ({ sep : Bytes // sep ≠ [] ∧ Spaces sep } × Entry)
  trail : Bytes
  trail_spaces : Spaces trail

/-- The bytes behind an entry. -/
def behind (rest : List ({ sep : Bytes // sep ≠ [] ∧ Spaces sep } × Entry)) (trail : Bytes) : Bytes :=
  rest.foldr (fun x bytes => x.1.val ++ (x.2.text ++ bytes)) trail

namespace MemberFile

variable (f : MemberFile)

def bytes : Bytes := f.lead ++ (f.first.text ++ behind f.rest f.trail)

def entries : List Entry := f.first :: f.rest.map Prod.snd

end MemberFile

/-- The member an entry stands for. -/
def Entry.member (gethostbyname : Bytes → Option Addr) (e : Entry) : Option (Member Addr) :=
  (gethostbyname e.host).map (Membership.member e.host (decimal e.port))

/-- The list has the entries in their order, and a key is one and the same index into it for all. -/
def ReadsEntries (gethostbyname : Bytes → Option Addr) (port : Int) (f : MemberFile) : Prop :=
  ∃ hostList, getMembership gethostbyname port f.bytes = some hostList ∧
    hostList.map some = f.entries.map (Entry.member gethostbyname) ∧
    ∀ key, myhash key hostList.length = myhash key f.entries.length

/-! ### What is read -/

section Reading

variable {gethostbyname : Bytes → Option Addr} {e : Entry} {sep trail : Bytes}
  {rest : List ({ sep : Bytes // sep ≠ [] ∧ Spaces sep } × Entry)}

theorem behind_cons (x : { sep : Bytes // sep ≠ [] ∧ Spaces sep } × Entry) :
    behind (x :: rest) trail = x.1.val ++ (x.2.text ++ behind rest trail) := rfl

variable (rest) in
theorem head_behind (htrail : Spaces trail) : ∀ c ∈ (behind rest trail).head?, isSpace c = true := by
  cases rest with
  | nil =>
      intro c hc
      exact htrail c (List.mem_of_mem_head? hc)
  | cons x rest =>
      obtain ⟨⟨sep, hne, hsep⟩, e⟩ := x
      intro c hc
      rw [behind_cons, List.head?_append_of_ne_nil _ hne] at hc
      exact hsep c (List.mem_of_mem_head? hc)

theorem read_entry (host : Bytes) (port : Int) (hsep : Spaces sep) {tail : Bytes}
    (htail : ∀ c ∈ tail.head?, isSpace c = true) :
    ∃ input, getString (opened (sep ++ (e.text ++ tail))) host = (e.host, input) ∧
      getInt input port = ((decimal e.port : Int), ⟨tail, tail.isEmpty, false⟩) := by
  obtain ⟨c, gap, hgap⟩ := List.exists_cons_of_ne_nil e.gap_ne
  have hhost := @getString_word _ _ (e.gap ++ (e.port ++ tail)) host hsep e.host_ne e.host_word (by
    rw [List.head?_append_of_ne_nil _ e.gap_ne]
    exact fun c hc => e.gap_spaces c (List.mem_of_mem_head? hc))
  have hopen : (e.gap ++ (e.port ++ tail)).isEmpty = false := by simp [hgap]
  rw [hopen] at hhost
  refine ⟨opened (e.gap ++ (e.port ++ tail)), ?_, ?_⟩
  · rw [Entry.text, List.append_assoc, List.append_assoc]
    exact hhost
  · exact getInt_digits port e.gap_spaces e.port_ne e.port_digits e.port_lt htail

/-- One round adds the pair that was read before and reads the next one. -/
theorem memberLoop_succ {input input' next : IStream} {host host' : Bytes} {port port' : Int}
    {address address' : Addr} (hopen : input.eof = false)
    (hstring : getString input host = (host', input')) (hint : getInt input' port = (port', next))
    (haddress : gethostbyname host' = some address') (fuel : Nat) (hostList : List (Member Addr)) :
    memberLoop gethostbyname (fuel + 1) input host port address hostList =
      memberLoop gethostbyname fuel next host' port' address'
        (hostList ++ [member host port address]) := by
  rw [memberLoop, hopen]
  simp only [Bool.false_eq_true, if_false, hstring, hint, haddress, Option.bind_eq_bind,
    Option.bind_some]

/-- The pair that has been read is added only if something follows it. -/
theorem memberLoop_eq {host : Bytes} {port : Int} {address : Addr} {ms hostList : List (Member Addr)}
    {fuel : Nat} (haddress : gethostbyname host = some address) (htrail : Spaces trail)
    (hms : rest.map (fun x => x.2.member gethostbyname) = ms.map some) (hfuel : rest.length + 1 < fuel) :
    memberLoop gethostbyname fuel ⟨behind rest trail, (behind rest trail).isEmpty, false⟩ host port
        address hostList =
      some (hostList ++ if trail = [] then (member host port address :: ms).dropLast
        else member host port address :: ms) := by
  induction rest generalizing host port address ms hostList fuel with
  | nil =>
      obtain ⟨more, rfl⟩ : ∃ more, fuel = more + 1 := ⟨fuel - 1, by omega⟩
      obtain rfl : ms = [] := by simpa using hms.symm
      change memberLoop gethostbyname (more + 1) ⟨trail, trail.isEmpty, false⟩ host port address
        hostList = _
      by_cases hnil : trail = []
      · subst hnil
        simp [memberLoop]
      · obtain ⟨more, rfl⟩ : ∃ n, more = n + 1 := ⟨more - 1, by simp at hfuel; omega⟩
        have hmore : trail.isEmpty = false := by simpa using hnil
        have hstring : getString (opened trail) host = (host, ⟨[], true, true⟩) := by
          rw [getString, sentry_spaces htrail]
        have hint : getInt ⟨[], true, true⟩ port = (port, ⟨[], true, true⟩) := by
          rw [getInt, sentry_of_eof rfl]
        rw [hmore, ← opened, memberLoop_succ rfl hstring hint haddress, memberLoop, if_pos rfl,
          if_neg hnil]
  | cons x rest ih =>
      obtain ⟨more, rfl⟩ : ∃ more, fuel = more + 1 := ⟨fuel - 1, by omega⟩
      obtain ⟨⟨sep, hne, hsep⟩, e⟩ := x
      obtain ⟨m, ms, rfl⟩ : ∃ m ms', ms = m :: ms' := by
        cases ms with
        | nil => cases hms
        | cons m ms => exact ⟨m, ms, rfl⟩
      obtain ⟨hm, htail⟩ := List.cons_eq_cons.mp hms
      obtain ⟨address', haddress', rfl⟩ := Option.map_eq_some_iff.mp hm
      obtain ⟨input, hstring, hint⟩ :=
        read_entry (e := e) host port hsep (head_behind rest htrail)
      have hopen : (behind ((⟨sep, hne, hsep⟩, e) :: rest) trail).isEmpty = false := by
        simp [behind_cons, hne]
      rw [hopen, behind_cons, ← opened, memberLoop_succ rfl hstring hint haddress',
        ih haddress' htail (by simp at hfuel; omega)]
      split <;> simp

end Reading

theorem getMembership_eq {gethostbyname : Bytes → Option Addr} (port : Int) {f : MemberFile}
    {ms : List (Member Addr)}
    (hms : f.entries.map (Entry.member gethostbyname) = ms.map some) :
    getMembership gethostbyname port f.bytes = some (if f.trail = [] then ms.dropLast else ms) := by
  obtain ⟨m, ms, rfl⟩ : ∃ m ms', ms = m :: ms' := by
    cases ms with
    | nil => cases hms
    | cons m ms => exact ⟨m, ms, rfl⟩
  obtain ⟨hm, hrest⟩ := List.cons_eq_cons.mp hms
  obtain ⟨address, haddress, rfl⟩ := Option.map_eq_some_iff.mp hm
  obtain ⟨input, hstring, hint⟩ := read_entry (e := f.first) [] port f.lead_spaces
    (head_behind f.rest f.trail_spaces)
  have hfuel : f.rest.length + 1 < f.bytes.length + 2 := by
    have hlen : f.rest.length ≤ (behind f.rest f.trail).length := by
      generalize f.rest = rest
      induction rest with
      | nil => exact Nat.zero_le _
      | cons x rest ih =>
          have hpos : 0 < x.1.val.length := List.length_pos_iff.mpr x.1.property.1
          rw [behind_cons, List.length_append, List.length_append, List.length_cons]
          omega
    rw [MemberFile.bytes, List.length_append, List.length_append]
    omega
  rw [List.map_map] at hrest
  rw [getMembership, MemberFile.bytes, hstring]
  simp only [hint, haddress, Option.bind_eq_bind, Option.bind_some]
  rw [← MemberFile.bytes, memberLoop_eq haddress f.trail_spaces hrest hfuel, List.nil_append]

/-- Every entry is in the list exactly if there is something behind the last one. -/
theorem readsEntries_iff (gethostbyname : Bytes → Option Addr) (port : Int) (f : MemberFile)
    (hresolvable : ∀ e ∈ f.entries, (gethostbyname e.host).isSome) :
    ReadsEntries gethostbyname port f ↔ f.trail ≠ [] := by
  obtain ⟨ms, hms⟩ : f.entries.map (Entry.member gethostbyname) ∈ Set.range (List.map some) := by
    rw [Set.range_list_map]
    intro m hm
    obtain ⟨e, he, rfl⟩ := List.mem_map.mp hm
    obtain ⟨address, haddress⟩ := Option.isSome_iff_exists.mp (hresolvable e he)
    exact ⟨_, by rw [Entry.member, haddress, Option.map_some]⟩
  replace hms := hms.symm
  have hread := getMembership_eq port hms
  constructor
  · rintro ⟨hostList, hlist, hentries, -⟩ htrail
    rw [hread, if_pos htrail, Option.some.injEq] at hlist
    rw [hms, ← hlist] at hentries
    have hlen := congrArg List.length hentries
    have hpos := congrArg List.length hms
    simp only [List.length_map, List.length_dropLast, MemberFile.entries, List.length_cons] at hlen hpos
    omega
  · intro htrail
    rw [if_neg htrail] at hread
    refine ⟨ms, hread, hms.symm, fun key => ?_⟩
    have hlen := congrArg List.length hms
    rw [List.length_map, List.length_map] at hlen
    rw [hlen]

/-- An entry as a file usually has it. -/
def entry (host port : String) (hhost : (cstr host).isEmpty = false)
    (hword : (cstr host).all (fun c => !isSpace c) = true) (hport : (cstr port).isEmpty = false)
    (hdigits : (cstr port).all isDigit = true) (hlt : decimal (cstr port) < 2 ^ 31) : Entry where
  host := cstr host
  gap := [space]
  port := cstr port
  host_ne := by simpa using hhost
  host_word := by simpa using hword
  gap_ne := by decide
  gap_spaces := by simp [Spaces, isSpace, space]
  port_ne := by simpa using hport
  port_digits := by simpa using hdigits
  port_lt := hlt

/-- Two members, and what the file ends with. -/
def twoMembers (trail : Bytes) (h : Spaces trail) : MemberFile where
  lead := []
  lead_spaces := by simp [Spaces]
  first := entry "n1" "50000" (by decide) (by decide) (by decide) (by decide) (by decide)
  rest := [(⟨[10], by decide, by simp [Spaces, isSpace]⟩,
    entry "n2" "50000" (by decide) (by decide) (by decide) (by decide) (by decide))]
  trail := trail
  trail_spaces := h

/-- Every name has the same address. -/
def sameAddress (_ : Bytes) : Option Nat := some 0

theorem readsEntries_iff_newline :
    ReadsEntries sameAddress 0 (twoMembers [10] (by simp [Spaces, isSpace])) ↔ ([10] : Bytes) ≠ [] :=
  readsEntries_iff sameAddress 0 (twoMembers [10] (by simp [Spaces, isSpace])) (by
    intro e _
    rfl)

/-- Without a newline behind the last entry, the list has one member, and keys go elsewhere. -/
theorem not_readsEntries :
    ¬ ReadsEntries sameAddress 0 (twoMembers [] (by simp [Spaces])) ∧
      getMembership sameAddress 0 (twoMembers [] (by simp [Spaces])).bytes =
        some [member (cstr "n1") 50000 0] := by
  have hread : getMembership sameAddress 0 (twoMembers [] (by simp [Spaces])).bytes =
      some [member (cstr "n1") 50000 0] := by decide
  refine ⟨?_, hread⟩
  rintro ⟨hostList, hlist, hentries, -⟩
  rw [hread, Option.some.injEq] at hlist
  rw [← hlist] at hentries
  cases congrArg List.length hentries

end FusionFS.Membership
