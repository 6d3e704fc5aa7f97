import FusionFS.MetadataService
import FusionFS.Namespace
import FusionFS.Requests
import Mathlib.Data.Finset.Filter
import Mathlib.Data.Finset.Image

/-!
# Listing a directory

`fusion_readdir` looks the value of a directory up and cuts it at its spaces. What is listed is
compared with the entries that a run of operations has created and not removed again, with every
request of the run sent to the servers.
-/

namespace FusionFS

open Transition MapProgram

/-- The key `fusion_readdir` looks up. -/
def readdirKey (path : Bytes) : Bytes := if path = [slash] then path else path ++ [slash]

/-- The names `fusion_readdir` calls the filler with. The filler takes every name, because it is
called with a zero offset. -/
def fusionReaddir (z : Zht) (path : Bytes) : List Bytes := strtok (zhtValue z (readdirKey path))

/-- `fusion_readdir`, as a request. -/
def readdirProg (path : Bytes) : Prog Bytes Bytes (List Bytes) :=
  .lookup (readdirKey path) fun val => .ret (strtok (val.getD []))

theorem eval_readdirProg (z : Zht) (path : Bytes) :
    map.eval (readdirProg path) z = some (z, fusionReaddir z path) := rfl

/-! ### Live entries -/

/-- The files and the directories that have been created and not been removed. -/
structure Live where
  files : Finset FilePath
  dirs : Finset FilePath

namespace Live

/-- The entries of a directory, by the names a listing should show. -/
def names (l : Live) (key : Bytes) : Finset Bytes :=
  (l.files.filter fun p => p.dirname = key).image FilePath.fname ∪
    (l.dirs.filter fun p => p.dirname = key).image fun p => p.fname ++ [slash]

/-- There is a directory with this key. -/
def HasDir (l : Live) (key : Bytes) : Prop := key = [slash] ∨ ∃ p ∈ l.dirs, key = p.bytes ++ [slash]

instance (l : Live) (key : Bytes) : Decidable (l.HasDir key) := inferInstanceAs (Decidable (_ ∨ _))

/-- What an operation is for. -/
def step (l : Live) : NsOp → Live
  | .create path _ => { l with files := insert path l.files }
  | .mkdir path => { l with dirs := insert path l.dirs }
  | .unlink path => { l with files := l.files.erase path }
  | .rmdir path _ =>
      if l.names (path.bytes ++ [slash]) = ∅ then { l with dirs := l.dirs.erase path } else l

theorem mem_names {l : Live} {key w : Bytes} : w ∈ l.names key ↔
    (∃ p ∈ l.files, p.dirname = key ∧ p.fname = w) ∨
      ∃ p ∈ l.dirs, p.dirname = key ∧ p.fname ++ [slash] = w := by
  simp [names, and_assoc]

end Live

/-! ### Runs -/

/-- FUSE creates entries that are not there, in directories that are, and its paths have no zero. -/
def ListLegal (l : Live) : NsOp → Prop
  | .create path addr => (0 ∉ path.bytes ∧ 0 ∉ addr) ∧ path ∉ l.files ∧ l.HasDir path.dirname
  | .mkdir path => 0 ∉ path.bytes ∧ path ∉ l.dirs ∧ l.HasDir path.dirname
  | .unlink path => 0 ∉ path.bytes
  | .rmdir path _ => 0 ∉ path.bytes

instance (l : Live) (op : NsOp) : Decidable (ListLegal l op) :=
  match op with
  | .create .. => inferInstanceAs (Decidable (_ ∧ _))
  | .mkdir _ => inferInstanceAs (Decidable (_ ∧ _))
  | .unlink _ => inferInstanceAs (Decidable (¬_))
  | .rmdir .. => inferInstanceAs (Decidable (¬_))

/-- The messages of an operation fit: of a new entry its own package and its parent's new value, and
of one to be removed the request that looks it up, and what comes back. -/
def MessagesFit (z : Zht) : NsOp → Prop
  | .create path addr => (insertPackage path.bytes addr).serialize.length ≤ maxMsgSize ∧
      FitsMessage path.dirname (zhtValue z path.dirname ++ path.fname ++ [space])
  | .mkdir path => (insertPackage (path.bytes ++ [slash]) [space]).serialize.length ≤ maxMsgSize ∧
      FitsMessage path.dirname (zhtValue z path.dirname ++ (path.fname ++ [slash]) ++ [space])
  | .unlink path => (lookupPackage path.bytes).serialize.length ≤ maxMsgSize ∧
      ∀ addr ∈ z path.bytes, FitsMessage path.bytes addr
  | .rmdir path _ => (lookupPackage (path.bytes ++ [slash])).serialize.length ≤ maxMsgSize

instance (z : Zht) (op : NsOp) : Decidable (MessagesFit z op) :=
  match op with
  | .create .. => inferInstanceAs (Decidable (_ ∧ _))
  | .mkdir _ => inferInstanceAs (Decidable (_ ∧ _))
  | .unlink _ => inferInstanceAs (Decidable (_ ∧ _))
  | .rmdir .. => inferInstanceAs (Decidable (_ ≤ _))

/-- A new name can be listed: it has no space, and a new directory can be looked up. -/
def Listable : NsOp → Prop
  | .create path _ => space ∉ path.fname
  | .mkdir path => space ∉ path.fname ∧ FitsMessage (path.bytes ++ [slash]) [space]
  | .unlink _ => True
  | .rmdir _ _ => True

instance (op : NsOp) : Decidable (Listable op) :=
  match op with
  | .create .. => inferInstanceAs (Decidable (¬_))
  | .mkdir _ => inferInstanceAs (Decidable (_ ∧ _))
  | .unlink _ => .isTrue trivial
  | .rmdir .. => .isTrue trivial

/-- An operation whose entry can be listed and whose messages fit. -/
def PlainEntry (net : ServerNet) (s : (HostEntity → Store) × Live) (op : NsOp) : Prop :=
  Listable op ∧ MessagesFit (held net s.1) op

instance (net : ServerNet) (s : (HostEntity → Store) × Live) (op : NsOp) : Decidable (PlainEntry net s op) :=
  inferInstanceAs (Decidable (_ ∧ _))

/-- The servers have room for the requests of an operation. -/
def RequestsReceived (net : ServerNet) (s : (HostEntity → Store) × Live) (op : NsOp) : Prop :=
  op.prog.Within (fun _ r => Received r) (held net s.1)

instance (net : ServerNet) (s : (HostEntity → Store) × Live) (op : NsOp) :
    Decidable (RequestsReceived net s op) :=
  haveI : ∀ _ : Zht, DecidablePred Received := fun _ => inferInstance
  inferInstanceAs (Decidable (op.prog.Within (fun _ r => Received r) (held net s.1)))

/-- An operation on the servers, next to what it is for. -/
def listStep (net : ServerNet) (s : (HostEntity → Store) × Live) (op : NsOp) :
    Option ((HostEntity → Store) × Live) :=
  (serviceStep net.storeService s.1 op).map fun servers => (servers, s.2.step op)

/-- Every directory's listing calls the filler once for each live entry and for nothing else. -/
def ExactListing (net : ServerNet) (s : (HostEntity → Store) × Live) : Prop :=
  ∀ path, s.2.HasDir (readdirKey path) →
    ∃ servers names, net.storeService.eval (readdirProg path) s.1 = some (servers, names) ∧
      ∀ w, names.count w = if w ∈ s.2.names (readdirKey path) then 1 else 0

/-- `main` puts the root directory into empty servers. -/
def listInit (net : ServerNet) : (HostEntity → Store) × Live :=
  ((net.storeService.insert (fun _ _ => none) [slash] [space]).getD fun _ _ => none, ⟨∅, ∅⟩)

/-! ### Lengths -/

theorem serialize_insertPackage (key val : Bytes) : (insertPackage key val).serialize =
    Protobuf.putField (1, .bytes key) ++
      ((if val = [] then [] else Protobuf.putField (3, .bytes val)) ++
        (insertPackage [] []).serialize.drop 2) := by
  have hrest : (insertPackage [] []).serialize.drop 2 = Protobuf.putField (4, .varint 1) ++
      (Protobuf.putField (8, .varint 3) ++ Protobuf.putField (9, .varint 5)) := by decide
  rw [hrest]
  by_cases hval : val = [] <;>
    simp [Package.serialize, Package.fields, insertPackage, Protobuf.putFields, hval,
      Package.int32Value]

theorem FitsMessage.of_length_le {key val val' : Bytes} (h : FitsMessage key val')
    (hlen : val.length ≤ val'.length) : FitsMessage key val := by
  have hfield : (Protobuf.putField (3, .bytes val)).length ≤ (Protobuf.putField (3, .bytes val')).length :=
    Protobuf.length_putField_bytes_le hlen
  rw [FitsMessage, serialize_insertPackage, List.length_append, List.length_append] at h ⊢
  by_cases hval : val = []
  · rw [if_pos hval, List.length_nil]
    omega
  · have hval' : val' ≠ [] := by
      rintro rfl
      exact hval (List.length_eq_zero_iff.mp (Nat.le_zero.mp hlen))
    rw [if_neg hval'] at h
    rw [if_neg hval]
    omega

theorem length_lookupPackage_le (key val : Bytes) :
    (lookupPackage key).serialize.length ≤ (insertPackage key val).serialize.length := by
  have hlookup : (lookupPackage key).serialize =
      Protobuf.putField (1, .bytes key) ++ (lookupPackage []).serialize.drop 2 := by
    simp [Package.serialize, Package.fields, lookupPackage, Protobuf.putFields, Package.int32Value,
      Protobuf.putField, Protobuf.putVarint, Protobuf.maxVarint]
  have hrest : ((lookupPackage []).serialize.drop 2).length =
      ((insertPackage [] []).serialize.drop 2).length := by decide
  rw [hlookup, serialize_insertPackage, List.length_append, List.length_append, List.length_append,
    hrest]
  omega

theorem length_removePackage_le (key : Bytes) :
    (removePackage key).serialize.length ≤ (lookupPackage key).serialize.length := by
  have hremove : (removePackage key).serialize =
      Protobuf.putField (1, .bytes key) ++ (removePackage []).serialize.drop 2 := by
    simp [Package.serialize, Package.fields, removePackage, Protobuf.putFields, Package.int32Value,
      Protobuf.putField, Protobuf.putVarint, Protobuf.maxVarint]
  have hlookup : (lookupPackage key).serialize =
      Protobuf.putField (1, .bytes key) ++ (lookupPackage []).serialize.drop 2 := by
    simp [Package.serialize, Package.fields, lookupPackage, Protobuf.putFields, Package.int32Value,
      Protobuf.putField, Protobuf.putVarint, Protobuf.maxVarint]
  rw [hremove, hlookup, List.length_append, List.length_append]
  exact Nat.add_le_add_left (by decide) _

theorem FitsMessage.lookup_le {key val : Bytes} (h : FitsMessage key val) :
    (lookupPackage key).serialize.length ≤ maxMsgSize := by
  have hle := length_lookupPackage_le key val
  rw [FitsMessage] at h
  omega

theorem FitsMessage.insert_le {key val : Bytes} (h : FitsMessage key val) :
    (insertPackage key val).serialize.length ≤ maxMsgSize := by
  rw [FitsMessage] at h
  omega

/-! ### The map -/

/-- The map holds the tree of the live entries, and no directory's value in it is too long. -/
structure Listed (s : Zht × Live) : Prop where
  tree : Tree s.1
  file : ∀ p, p ∈ s.2.files ↔ (s.1 p.bytes).isSome
  dir : ∀ p, p ∈ s.2.dirs ↔ (s.1 (p.bytes ++ [slash])).isSome
  fits : ∀ key val, key.getLast? = some slash → s.1 key = some val → FitsMessage key val

namespace Listed

variable {s : Zht × Live} {key : Bytes}

theorem isSome_of_hasDir (h : Listed s) (hdir : s.2.HasDir key) :
    (s.1 key).isSome ∧ key.getLast? = some slash := by
  rcases hdir with rfl | ⟨p, hp, rfl⟩
  · exact ⟨h.tree.root, rfl⟩
  · exact ⟨(h.dir p).mp hp, List.getLast?_concat⟩

theorem mem_names_iff (h : Listed s) (hdir : s.2.HasDir key) {w : Bytes} :
    w ∈ s.2.names key ↔ w ∈ listed s.1 key := by
  obtain ⟨hsome, hslash⟩ := h.isSome_of_hasDir hdir
  rw [Live.mem_names]
  constructor
  · rintro (⟨p, hp, rfl, rfl⟩ | ⟨p, hp, rfl, rfl⟩)
    · exact (h.tree.parent_file p ((h.file p).mp hp)).1
    · exact (h.tree.parent_dir p ((h.dir p).mp hp)).1
  · intro hw
    obtain ⟨⟨name, hname, hform⟩, -, hkey⟩ := h.tree.token hslash hw
    have hhead : (key ++ name).head? = some slash := by
      rw [List.head?_append, h.tree.head?_key hsome]
      rfl
    have hleaf : (key ++ name).getLast? ≠ some slash := by
      rw [List.getLast?_append_of_ne_nil _ hname.1]
      exact fun hlast => hname.2.1 (List.mem_of_getLast? hlast)
    let p : FilePath := ⟨key ++ name, hhead, hleaf⟩
    have hdirname : p.dirname = key := dirOf_append_of_notMem hslash hname.2.1
    have hfname : p.fname = name := baseOf_append_of_notMem hslash hname.2.1
    rcases hform with rfl | rfl
    · exact .inl ⟨p, (h.file p).mpr hkey, hdirname, hfname⟩
    · exact .inr ⟨p, (h.dir p).mpr (by rwa [List.append_assoc]), hdirname, by rw [hfname]⟩

theorem count_fusionReaddir (h : Listed s) {path : Bytes} (hdir : s.2.HasDir (readdirKey path))
    (w : Bytes) : (fusionReaddir s.1 path).count w =
      if w ∈ s.2.names (readdirKey path) then 1 else 0 := by
  obtain ⟨hsome, hslash⟩ := h.isSome_of_hasDir hdir
  have hnodup : (listed s.1 (readdirKey path)).Nodup := (h.tree.listing _ hslash hsome).2.1
  change (listed s.1 (readdirKey path)).count w = _
  rw [hnodup.count]
  simp only [h.mem_names_iff hdir]

theorem init : Listed (zhtInit, ⟨∅, ∅⟩) where
  tree := Tree.init
  file p := by
    have hne : p.bytes ≠ [slash] := p.ne_of_getLast?_slash rfl
    simp [zhtInit, hne]
  dir p := by
    have hne : p.bytes ≠ [] := fun hnil => by simpa [hnil] using p.absolute
    simp [zhtInit, hne]
  fits key val _ hval := by
    by_cases hkey : key = [slash]
    · rw [hkey] at hval ⊢
      obtain rfl : [space] = val := by simpa [zhtInit] using hval
      decide
    · simp [zhtInit, hkey] at hval

theorem attach (h : Listed s) {w val key' : Bytes} {l : Live} (hsome : (s.1 key).isSome)
    (htree : Tree (zhtInsert (zhtAppend s.1 key w) key' val))
    (hval : key'.getLast? = some slash → FitsMessage key' val)
    (hlist : FitsMessage key (zhtValue s.1 key ++ w ++ [space]))
    (hfile : ∀ p, p ∈ l.files ↔ p.bytes = key' ∨ p ∈ s.2.files)
    (hdir : ∀ p, p ∈ l.dirs ↔ p.bytes ++ [slash] = key' ∨ p ∈ s.2.dirs) :
    Listed (zhtInsert (zhtAppend s.1 key w) key' val, l) := by
  have hkeys : ∀ k, (zhtInsert (zhtAppend s.1 key w) key' val k).isSome ↔
      k = key' ∨ (s.1 k).isSome := by
    intro k
    by_cases hk : k = key'
    · simp [hk]
    · rw [zhtInsert_of_ne hk, zhtAppend, zhtUpdate_eq_insert]
      by_cases hkey : k = key
      · simp [hkey, hsome]
      · simp [hk, hkey]
  refine ⟨htree, fun p => ?_, fun p => ?_, fun k v hend hv => ?_⟩
  · rw [hfile, h.file, hkeys]
  · rw [hdir, h.dir, hkeys]
  · dsimp only at hv
    by_cases hk : k = key'
    · rw [hk, zhtInsert_self, Option.some.injEq] at hv
      rw [hk] at hend
      rw [hk, ← hv]
      exact hval hend
    · rw [zhtInsert_of_ne hk, zhtAppend, zhtUpdate_eq_insert] at hv
      by_cases hkey : k = key
      · rw [hkey, zhtInsert_self, Option.some.injEq] at hv
        rwa [hkey, ← hv]
      · rw [zhtInsert_of_ne hkey] at hv
        exact h.fits k v hend hv

theorem detach (h : Listed s) {w key' : Bytes} {l : Live} (hslash : key.getLast? = some slash)
    (hin : w ∈ listed s.1 key)
    (htree : Tree (zhtRemove
      (zhtInsert s.1 key (Delimited.enc space ((listed s.1 key).erase w))) key'))
    (hfile : ∀ p, p ∈ l.files ↔ p.bytes ≠ key' ∧ p ∈ s.2.files)
    (hdir : ∀ p, p ∈ l.dirs ↔ p.bytes ++ [slash] ≠ key' ∧ p ∈ s.2.dirs) :
    Listed (zhtRemove (zhtInsert s.1 key (Delimited.enc space ((listed s.1 key).erase w))) key', l) := by
  obtain ⟨-, hsome, -⟩ := h.tree.token hslash hin
  obtain ⟨hval, -, -⟩ := h.tree.listing key hslash hsome
  have hkeys : ∀ k, (zhtRemove (zhtInsert s.1 key
      (Delimited.enc space ((listed s.1 key).erase w))) key' k).isSome ↔
        k ≠ key' ∧ (s.1 k).isSome := by
    intro k
    by_cases hk : k = key'
    · simp [hk]
    · rw [zhtRemove_of_ne hk]
      by_cases hkey : k = key
      · simp only [hkey, zhtInsert_self, Option.isSome_some, hsome, and_true, true_iff]
        rwa [← hkey]
      · simp [hk, hkey]
  refine ⟨htree, fun p => ?_, fun p => ?_, fun k v hend hv => ?_⟩
  · rw [hfile, h.file, hkeys]
  · rw [hdir, h.dir, hkeys]
  · dsimp only at hv
    by_cases hk : k = key'
    · rw [hk, zhtRemove_self] at hv
      cases hv
    · rw [zhtRemove_of_ne hk] at hv
      by_cases hkey : k = key
      · rw [hkey, zhtInsert_self, Option.some.injEq] at hv
        rw [hkey, ← hv]
        exact (h.fits key _ hslash hval).of_length_le
          (Delimited.length_enc_le_of_sublist space List.erase_sublist)
      · rw [zhtInsert_of_ne hkey] at hv
        exact h.fits k v hend hv

theorem create_live (h : Listed s) {path : FilePath} {addr : Bytes}
    (hlegal : ListLegal s.2 (.create path addr)) (hlist : Listable (.create path addr))
    (hmessages : MessagesFit s.1 (.create path addr)) :
    ∃ z, nsStep s.1 (.create path addr) = some z ∧ Listed (z, s.2.step (.create path addr)) := by
  obtain ⟨-, hnew, hparent⟩ := hlegal
  have hsome := (h.isSome_of_hasDir hparent).1
  rw [h.file, Option.not_isSome_iff_eq_none, ← Option.isNone_iff_eq_none] at hnew
  obtain ⟨z, hstep, htree⟩ := h.tree.step
    (show NsLegal s.1 (.create path addr) from ⟨hlist, hnew, hsome⟩)
  obtain rfl := Option.some.inj hstep
  rw [createEntry_eq path hsome] at htree
  refine ⟨_, rfl, ?_⟩
  rw [createEntry_eq path hsome]
  have hleaf : path.bytes.getLast? = some slash → FitsMessage path.bytes addr :=
    fun hlast => absurd hlast path.leaf
  refine h.attach hsome htree hleaf hmessages.2 (fun p => ?_) fun p => ?_
  · rw [Live.step, Finset.mem_insert]
    exact or_congr_left ⟨fun heq => by rw [heq], FilePath.ext_bytes⟩
  · have hne : path.bytes ≠ p.bytes ++ [slash] := path.ne_of_getLast?_slash List.getLast?_concat
    simp [Live.step, hne.symm]

theorem mkdir_live (h : Listed s) {path : FilePath} (hlegal : ListLegal s.2 (.mkdir path))
    (hlist : Listable (.mkdir path)) (hmessages : MessagesFit s.1 (.mkdir path)) :
    ∃ z, nsStep s.1 (.mkdir path) = some z ∧ Listed (z, s.2.step (.mkdir path)) := by
  obtain ⟨-, hnew, hparent⟩ := hlegal
  have hsome := (h.isSome_of_hasDir hparent).1
  rw [h.dir, Option.not_isSome_iff_eq_none, ← Option.isNone_iff_eq_none] at hnew
  obtain ⟨z, hstep, htree⟩ := h.tree.step
    (show NsLegal s.1 (.mkdir path) from ⟨hlist.1, hnew, hsome⟩)
  obtain rfl := Option.some.inj hstep
  rw [mkdirEntry_eq] at htree
  refine ⟨_, rfl, ?_⟩
  rw [mkdirEntry_eq]
  refine h.attach hsome htree (fun _ => hlist.2) hmessages.2 (fun p => ?_) fun p => ?_
  · have hne : p.bytes ≠ path.bytes ++ [slash] := p.ne_of_getLast?_slash List.getLast?_concat
    simp [Live.step, hne]
  · rw [Live.step, Finset.mem_insert, List.append_left_inj]
    exact or_congr_left ⟨fun heq => by rw [heq], FilePath.ext_bytes⟩

theorem unlink_live (h : Listed s) (path : FilePath) :
    ∃ z, nsStep s.1 (.unlink path) = some z ∧ Listed (z, s.2.step (.unlink path)) := by
  cases hz : s.1 path.bytes with
  | none =>
      have hout : path ∉ s.2.files := by rw [h.file, hz]; simp
      refine ⟨s.1, by simp [nsStep, unlinkEntry, hz], ?_⟩
      rw [Live.step, Finset.erase_eq_of_notMem hout]
      exact h
  | some val =>
      obtain ⟨hin, -⟩ := h.tree.parent_file path (by rw [hz]; rfl)
      have hdelete := h.tree.zhtDelete_listed path.getLast?_dirname hin
      rw [FilePath.dirname, FilePath.fname] at hdelete
      obtain ⟨z, hstep, htree⟩ := h.tree.step (show NsLegal s.1 (.unlink path) from trivial)
      simp only [nsStep, unlinkEntry, hz, hdelete, Option.bind_eq_bind, Option.bind_some,
        Option.map_some, Option.some.injEq] at hstep ⊢
      subst hstep
      refine ⟨_, rfl, h.detach path.getLast?_dirname hin htree (fun p => ?_) fun p => ?_⟩
      · rw [Live.step, Finset.mem_erase]
        exact and_congr_left fun _ => not_congr ⟨fun heq => by rw [heq], FilePath.ext_bytes⟩
      · have hne : path.bytes ≠ p.bytes ++ [slash] :=
          path.ne_of_getLast?_slash List.getLast?_concat
        simp [Live.step, hne.symm]

theorem rmdir_live (h : Listed s) (path : FilePath) (junk : Bytes) :
    ∃ z, nsStep s.1 (.rmdir path junk) = some z ∧ Listed (z, s.2.step (.rmdir path junk)) := by
  cases hz : s.1 (path.bytes ++ [slash]) with
  | none =>
      have hout : path ∉ s.2.dirs := by rw [h.dir, hz]; simp
      refine ⟨s.1, by simp [nsStep, rmdirEntry, hz], ?_⟩
      rw [Live.step, Finset.erase_eq_of_notMem hout, ite_self]
      exact h
  | some val =>
      have hin : path ∈ s.2.dirs := by rw [h.dir, hz]; rfl
      have hslash : (path.bytes ++ [slash]).getLast? = some slash := List.getLast?_concat
      have hnames : s.2.names (path.bytes ++ [slash]) = ∅ ↔ listed s.1 (path.bytes ++ [slash]) = [] := by
        rw [Finset.eq_empty_iff_forall_notMem, List.eq_nil_iff_forall_not_mem]
        exact forall_congr' fun w => not_congr (h.mem_names_iff (.inr ⟨path, hin, rfl⟩))
      obtain ⟨hval, -, hmem⟩ := h.tree.listing _ hslash (by rw [hz]; rfl)
      rw [hz, Option.some.injEq] at hval
      by_cases hempty : listed s.1 (path.bytes ++ [slash]) = []
      · rw [hempty, Delimited.enc_nil] at hval
        obtain ⟨hpar, -⟩ := h.tree.parent_dir path (by rw [hz]; rfl)
        have hdelete := h.tree.zhtDelete_listed path.getLast?_dirname hpar
        rw [FilePath.dirname, FilePath.fname] at hdelete
        have hcut : (realIp junk [space]).2 = [space] := rfl
        obtain ⟨z, hstep, htree⟩ := h.tree.step (show NsLegal s.1 (.rmdir path junk) from trivial)
        rw [hval] at hz
        simp only [nsStep, rmdirEntry, hz, hcut, if_true, hdelete, Option.bind_eq_bind,
          Option.bind_some, Option.map_some, Option.some.injEq] at hstep ⊢
        subst hstep
        refine ⟨_, rfl, h.detach path.getLast?_dirname hpar htree (fun p => ?_) fun p => ?_⟩
        · have hne : p.bytes ≠ path.bytes ++ [slash] := p.ne_of_getLast?_slash hslash
          rw [Live.step, if_pos (hnames.mpr hempty)]
          simp [hne]
        · rw [Live.step, if_pos (hnames.mpr hempty), Finset.mem_erase, Ne, Ne, List.append_left_inj]
          exact and_congr_left fun _ => not_congr ⟨fun heq => by rw [heq], FilePath.ext_bytes⟩
      · have hkeep : (realIp junk val).2 ≠ [space] := by
          rw [hval]
          exact fun hcut => hempty (realIp_listing (fun w hw => (hmem w hw).1) hcut)
        refine ⟨s.1, by simp [nsStep, rmdirEntry, hz, hkeep], ?_⟩
        rw [Live.step, if_neg (mt hnames.mp hempty)]
        exact h

theorem nsStep_live (h : Listed s) {op : NsOp} (hlegal : ListLegal s.2 op) (hlist : Listable op)
    (hmessages : MessagesFit s.1 op) :
    ∃ z, nsStep s.1 op = some z ∧ Listed (z, s.2.step op) := by
  cases op with
  | create path addr => exact h.create_live hlegal hlist hmessages
  | mkdir path => exact h.mkdir_live hlegal hlist hmessages
  | unlink path => exact h.unlink_live path
  | rmdir path junk => exact h.rmdir_live path junk

/-- The parent of an entry that is listed has a value, and taking the entry out of it leaves a shorter
one. -/
theorem exists_edit (h : Listed s) {dir w : Bytes} (hslash : dir.getLast? = some slash)
    (hin : w ∈ listed s.1 dir) : ∃ val newval, s.1 dir = some val ∧
      (Call.delete dir w).edit val = some newval ∧ newval.length ≤ val.length ∧
        ∀ b ∈ newval, b = space ∨ b ∈ val := by
  obtain ⟨-, hsome, -⟩ := h.tree.token hslash hin
  obtain ⟨val, hval⟩ := Option.isSome_iff_exists.mp hsome
  have hdelete := Call.apply_eq (c := .delete dir w) rfl s.1
  rw [Call.apply, h.tree.zhtDelete_listed hslash hin, Call.key, zhtValue_of_eq hval] at hdelete
  obtain ⟨newval, hedit, -⟩ := Option.map_eq_some_iff.mp hdelete.symm
  refine ⟨val, newval, hval, hedit, ?_⟩
  obtain ⟨pch, hpch, rfl⟩ := Option.map_eq_some_iff.mp hedit
  constructor
  · have hlen := Delimited.find_add_length_le hpch
    simp only [List.length_append, List.length_take, List.length_drop, List.length_singleton] at hlen ⊢
    omega
  · intro b hb
    rw [List.mem_append, List.mem_append, List.mem_singleton] at hb
    obtain (hfront | rfl) | hback := hb
    · exact .inr (List.mem_of_mem_take hfront)
    · exact .inl rfl
    · exact .inr (List.mem_of_mem_drop hback)

end Listed

/-! ### The requests -/

section Requests

variable {z : Zht} {dir val newval : Bytes}

theorem rewrites_fitting (hval : z dir = some val) (hfits : FitsMessage dir val) :
    Rewrites Fitting z dir newval ↔ FitsMessage dir newval := by
  constructor
  · rintro ⟨-, -, -, -, hback⟩
    exact hback newval zhtInsert_self
  · intro hnew
    refine ⟨⟨hfits.lookup_le, ?_⟩, (length_removePackage_le dir).trans hfits.lookup_le, hnew.insert_le,
      hfits.lookup_le, ?_⟩
    · intro v hv
      obtain rfl : val = v := Option.some.inj (hval.symm.trans hv)
      exact hfits
    · intro v hv
      rw [zhtInsert_self, Option.mem_def, Option.some.injEq] at hv
      exact hv ▸ hnew

theorem rewrites_clean (hdir : dir ≠ []) (hdir0 : 0 ∉ dir) (hnew : 0 ∉ newval) :
    Rewrites (fun _ r => CleanRequest r) z dir newval :=
  ⟨⟨hdir, hdir0⟩, ⟨hdir, hdir0⟩, ⟨hdir, hdir0, hnew⟩, ⟨hdir, hdir0⟩⟩

end Requests

theorem FilePath.ne_nil (p : FilePath) : p.bytes ≠ [] := by
  intro hnil
  have hhead := p.absolute
  rw [hnil] at hhead
  cases hhead

theorem FilePath.zero_notMem {p : FilePath} (h : 0 ∉ p.bytes) :
    (p.dirname ≠ [] ∧ 0 ∉ p.dirname) ∧ 0 ∉ p.fname ∧ p.bytes ++ [slash] ≠ [] ∧
      0 ∉ p.bytes ++ [slash] := by
  have hparts : 0 ∉ p.dirname ++ p.fname := by
    rw [FilePath.dirname, FilePath.fname, dirOf_append_baseOf]
    exact h
  rw [List.mem_append, not_or] at hparts
  refine ⟨⟨?_, hparts.1⟩, hparts.2, List.append_ne_nil_of_right_ne_nil _ (List.cons_ne_nil _ _), ?_⟩
  · intro hnil
    have hlast := p.getLast?_dirname
    rw [hnil] at hlast
    cases hlast
  · rw [List.mem_append, not_or]
    exact ⟨h, by decide⟩

namespace Listed

variable {s : Zht × Live} {op : NsOp}

/-- The requests of an operation fit exactly if the messages do that it is known by. -/
theorem within_fitting_iff (h : Listed s) (hlegal : ListLegal s.2 op) :
    op.prog.Within Fitting s.1 ↔ MessagesFit s.1 op := by
  cases op with
  | create path addr =>
      obtain ⟨val, hval⟩ := Option.isSome_iff_exists.mp (h.isSome_of_hasDir hlegal.2.2).1
      rw [NsOp.within_create hval, rewrites_fitting hval (h.fits _ _ path.getLast?_dirname hval),
        MessagesFit, zhtValue_of_eq hval]
      exact and_comm
  | mkdir path =>
      obtain ⟨val, hval⟩ := Option.isSome_iff_exists.mp (h.isSome_of_hasDir hlegal.2.2).1
      have hval' : zhtInsert s.1 (path.bytes ++ [slash]) [space] path.dirname = some val := by
        rw [zhtInsert_of_ne path.dirname_ne_append_slash, hval]
      rw [NsOp.within_mkdir hval, rewrites_fitting hval' (h.fits _ _ path.getLast?_dirname hval),
        MessagesFit, zhtValue_of_eq hval]
      rfl
  | unlink path =>
      cases hz : s.1 path.bytes with
      | none => rw [NsOp.within_unlink_of_none hz]; rfl
      | some addr =>
          obtain ⟨hin, -⟩ := h.tree.parent_file path (by rw [hz]; rfl)
          obtain ⟨val, newval, hval, hedit, hlen, -⟩ := h.exists_edit path.getLast?_dirname hin
          have hfits := h.fits _ _ path.getLast?_dirname hval
          rw [NsOp.within_unlink hz hval hedit, rewrites_fitting hval hfits]
          have hsame : zhtInsert s.1 path.dirname newval path.bytes = s.1 path.bytes :=
            zhtInsert_of_ne (path.ne_dirname path)
          constructor
          · exact fun hall => hall.1
          · intro hmessages
            refine ⟨hmessages, hfits.of_length_le hlen, ⟨hmessages.1, ?_⟩,
              (length_removePackage_le _).trans hmessages.1⟩
            rw [hsame]
            exact hmessages.2
  | rmdir path junk =>
      have hslash : (path.bytes ++ [slash]).getLast? = some slash := List.getLast?_concat
      have hown : Fitting s.1 (.lookup (path.bytes ++ [slash])) ↔ MessagesFit s.1 (.rmdir path junk) :=
        and_iff_left fun v hv => h.fits _ _ hslash hv
      by_cases hkept : ∀ v ∈ s.1 (path.bytes ++ [slash]), (realIp junk v).2 ≠ [space]
      · rw [NsOp.within_rmdir_of_kept hkept, hown]
      · push Not at hkept
        obtain ⟨v, hz, hempty⟩ := hkept
        obtain ⟨hin, -⟩ := h.tree.parent_dir path (by rw [hz]; rfl)
        obtain ⟨val, newval, hval, hedit, hlen, -⟩ := h.exists_edit path.getLast?_dirname hin
        have hfits := h.fits _ _ path.getLast?_dirname hval
        rw [NsOp.within_rmdir hz hempty hval hedit, rewrites_fitting hval hfits, hown]
        exact and_iff_left_of_imp fun hmessages =>
          ⟨hfits.of_length_le hlen, (length_removePackage_le _).trans hmessages⟩

/-- The strings of the requests are strings of C. -/
theorem within_clean (h : Listed s) (hclean : ∀ key val, s.1 key = some val → 0 ∉ val)
    (hlegal : ListLegal s.2 op) : op.prog.Within (fun _ r => CleanRequest r) s.1 := by
  cases op with
  | create path addr =>
      obtain ⟨⟨hpath, haddr⟩, -, hparent⟩ := hlegal
      obtain ⟨⟨hdir, hdir0⟩, hname, -⟩ := path.zero_notMem hpath
      obtain ⟨val, hval⟩ := Option.isSome_iff_exists.mp (h.isSome_of_hasDir hparent).1
      rw [NsOp.within_create hval]
      refine ⟨rewrites_clean hdir hdir0 ?_, path.ne_nil, hpath, haddr⟩
      simp only [List.mem_append, not_or]
      exact ⟨⟨hclean _ _ hval, hname⟩, by decide⟩
  | mkdir path =>
      obtain ⟨hpath, -, hparent⟩ := hlegal
      obtain ⟨⟨hdir, hdir0⟩, hname, hfull⟩ := path.zero_notMem hpath
      obtain ⟨val, hval⟩ := Option.isSome_iff_exists.mp (h.isSome_of_hasDir hparent).1
      rw [NsOp.within_mkdir hval]
      refine ⟨⟨hfull.1, hfull.2, by decide⟩, rewrites_clean hdir hdir0 ?_⟩
      simp only [List.mem_append, not_or]
      exact ⟨⟨hclean _ _ hval, hname, by decide⟩, by decide⟩
  | unlink path =>
      obtain ⟨⟨hdir, hdir0⟩, -⟩ := path.zero_notMem hlegal
      have hown : CleanRequest (.lookup path.bytes) := ⟨path.ne_nil, hlegal⟩
      cases hz : s.1 path.bytes with
      | none => rwa [NsOp.within_unlink_of_none hz]
      | some addr =>
          obtain ⟨hin, -⟩ := h.tree.parent_file path (by rw [hz]; rfl)
          obtain ⟨val, newval, hval, hedit, -, hmem⟩ := h.exists_edit path.getLast?_dirname hin
          rw [NsOp.within_unlink hz hval hedit]
          refine ⟨hown, rewrites_clean hdir hdir0 fun hzero => ?_, hown, hown⟩
          exact (hmem 0 hzero).elim (fun heq => absurd heq (by decide)) (hclean _ _ hval)
  | rmdir path junk =>
      obtain ⟨⟨hdir, hdir0⟩, -, hown⟩ := path.zero_notMem hlegal
      by_cases hkept : ∀ v ∈ s.1 (path.bytes ++ [slash]), (realIp junk v).2 ≠ [space]
      · rwa [NsOp.within_rmdir_of_kept hkept]
      · push Not at hkept
        obtain ⟨v, hz, hempty⟩ := hkept
        obtain ⟨hin, -⟩ := h.tree.parent_dir path (by rw [hz]; rfl)
        obtain ⟨val, newval, hval, hedit, -, hmem⟩ := h.exists_edit path.getLast?_dirname hin
        rw [NsOp.within_rmdir hz hempty hval hedit]
        refine ⟨hown, rewrites_clean hdir hdir0 fun hzero => ?_, hown⟩
        exact (hmem 0 hzero).elim (fun heq => absurd heq (by decide)) (hclean _ _ hval)

end Listed

/-! ### The servers -/

/-- The servers hold the tree of the live entries. -/
structure Lists (net : ServerNet) (s : (HostEntity → Store) × Live) (z : Zht) : Prop where
  holds : HoldsMap net z s.1
  listed : Listed (z, s.2)

section Servers

variable {net : ServerNet} {s s' : (HostEntity → Store) × Live} {z : Zht} {op : NsOp}

/-- The service reads a directory as the map does. -/
theorem eval_readdir {servers : HostEntity → Store} {path : Bytes} (h : HoldsMap net z servers)
    (hclean : CleanRequest (.lookup (readdirKey path))) (hfits : Fitting z (.lookup (readdirKey path))) :
    ∃ servers', net.storeService.eval (readdirProg path) servers =
      some (servers', fusionReaddir z path) := by
  have hwithin : (readdirProg path).Within (fun z r => CleanRequest r ∧ Fitting z r) z :=
    ⟨⟨hclean, hfits⟩, trivial⟩
  obtain ⟨servers', hrun, -⟩ := h.eval hwithin (eval_readdirProg z path)
  exact ⟨servers', hrun⟩

namespace Lists

theorem within_clean (h : Lists net s z) (hlegal : ListLegal s.2 op) :
    op.prog.Within (fun _ r => CleanRequest r) z :=
  h.listed.within_clean (fun key val hval => (h.holds.clean key val hval).notMem) hlegal

theorem exactListing (h : Lists net s z) : ExactListing net s := by
  intro path hdir
  obtain ⟨hsome, hslash⟩ := h.listed.isSome_of_hasDir hdir
  obtain ⟨val, hval⟩ := Option.isSome_iff_exists.mp hsome
  have hentry := h.holds.clean _ val hval
  have hfits := h.listed.fits _ val hslash hval
  obtain ⟨servers, hrun⟩ := eval_readdir h.holds (show CleanRequest (.lookup (readdirKey path)) from
    ⟨hentry.key.1, hentry.key.2.1⟩) ⟨hfits.lookup_le, fun v hv => by
      obtain rfl : val = v := Option.some.inj (hval.symm.trans hv)
      exact hfits⟩
  exact ⟨servers, _, hrun, h.listed.count_fusionReaddir hdir⟩

theorem init (net : ServerNet) : Lists net (listInit net) zhtInit := by
  have hentry : CleanEntry [slash] [space] := cleanEntry_of_length (by decide) (by decide) (by decide)
    (by decide)
  obtain ⟨servers, hmount, hholds⟩ := (HoldsMap.empty net).insert hentry (by decide)
  refine ⟨?_, Listed.init⟩
  rw [listInit, hmount]
  exact hholds

theorem step (h : Lists net s z) (hlegal : ListLegal s.2 op) (hplain : PlainEntry net s op) :
    ∃ s', listStep net s op = some s' ∧ ∃ z', Lists net s' z' := by
  obtain ⟨hlist, hmessages⟩ := hplain
  rw [h.holds.held_eq] at hmessages
  obtain ⟨z', hz', hlisted⟩ := h.listed.nsStep_live hlegal hlist hmessages
  rw [← op.eval_prog, Option.map_eq_some_iff] at hz'
  obtain ⟨⟨_, ok⟩, heval, rfl⟩ := hz'
  have hwithin := (h.within_clean hlegal).and ((h.listed.within_fitting_iff hlegal).mpr hmessages)
  obtain ⟨servers, hrun, hholds⟩ := h.holds.eval hwithin heval
  refine ⟨(servers, s.2.step op), ?_, _, hholds, hlisted⟩
  rw [listStep, serviceStep, hrun, Option.map_some, Option.map_some]

/-- An operation that goes through has fitted, and the servers hold what it leaves. -/
theorem messagesFit (h : Lists net s z) (hlegal : ListLegal s.2 op)
    (hreceived : RequestsReceived net s op) (hstep : listStep net s op = some s') :
    MessagesFit z op ∧ s'.2 = s.2.step op ∧ ∃ z', nsStep z op = some z' ∧ HoldsMap net z' s'.1 := by
  obtain ⟨servers, hservers, rfl⟩ := Option.map_eq_some_iff.mp hstep
  have hsome : (net.storeService.eval op.prog s.1).isSome := by
    rw [serviceStep] at hservers
    rw [← Option.isSome_map, hservers]
    rfl
  have hclean := h.within_clean hlegal
  rw [RequestsReceived, h.holds.held_eq] at hreceived
  obtain ⟨hfit, hmap⟩ := h.holds.within (hclean.and hreceived) hsome
  obtain ⟨⟨z', ok⟩, heval⟩ := Option.isSome_iff_exists.mp hmap
  obtain ⟨servers', hrun, hholds⟩ := h.holds.eval (hclean.and hfit) heval
  rw [serviceStep, hrun, Option.map_some, Option.some.injEq] at hservers
  refine ⟨(h.listed.within_fitting_iff hlegal).mp hfit, rfl, z', ?_, hservers ▸ hholds⟩
  rw [← op.eval_prog, heval, Option.map_some]

/-- The names in a listing have no space. -/
theorem space_notMem (hexact : ExactListing net s) {path w : Bytes} (hdir : s.2.HasDir (readdirKey path))
    (hw : w ∈ s.2.names (readdirKey path)) : space ∉ w := by
  obtain ⟨servers, names, hrun, hcount⟩ := hexact path hdir
  have hone := hcount w
  rw [if_pos hw] at hone
  have hmem : w ∈ names := List.count_pos_iff.mp (by rw [hone]; exact Nat.one_pos)
  obtain ⟨r, -, heq⟩ := Option.bind_eq_some_iff.mp hrun
  obtain ⟨-, rfl⟩ := Prod.mk.inj (Option.some.inj heq)
  exact Delimited.notMem_of_mem_words List.not_mem_nil hmem

theorem exists_readdirKey {l : Live} {key : Bytes} (hdir : l.HasDir key) :
    ∃ path, readdirKey path = key := by
  rcases hdir with rfl | ⟨p, -, rfl⟩
  · exact ⟨[slash], rfl⟩
  · exact ⟨p.bytes, by rw [readdirKey, if_neg (p.ne_of_getLast?_slash rfl)]⟩

/-- A listing that shows a new entry has not been cut inside its name. -/
theorem listable (h : Lists net s z) (hlegal : ListLegal s.2 op)
    (hreceived : RequestsReceived net s op) (hstep : listStep net s op = some s')
    (hexact : ExactListing net s') : Listable op := by
  obtain ⟨hmessages, hlive, z', hz', hholds⟩ := h.messagesFit hlegal hreceived hstep
  cases op with
  | create path addr =>
      have hparent : s'.2.HasDir path.dirname := by
        rw [hlive]
        exact hlegal.2.2
      obtain ⟨dir, hdir⟩ := exists_readdirKey hparent
      rw [← hdir] at hparent
      apply space_notMem hexact hparent
      rw [hdir, hlive]
      exact Live.mem_names.mpr (.inl ⟨path, Finset.mem_insert_self .., rfl, rfl⟩)
  | mkdir path =>
      have hdirs : path ∈ s'.2.dirs := by
        rw [hlive]
        exact Finset.mem_insert_self ..
      have hparent : s'.2.HasDir path.dirname := by
        rw [hlive]
        refine hlegal.2.2.imp_right ?_
        rintro ⟨p, hp, heq⟩
        exact ⟨p, Finset.mem_insert_of_mem hp, heq⟩
      obtain ⟨dir, hdir⟩ := exists_readdirKey hparent
      rw [← hdir] at hparent
      constructor
      · have hname : space ∉ path.fname ++ [slash] := by
          apply space_notMem hexact hparent
          rw [hdir]
          exact Live.mem_names.mpr (.inr ⟨path, hdirs, rfl, rfl⟩)
        exact fun hmem => hname (List.mem_append_left _ hmem)
      · -- the new directory is looked up, too
        have hkey : readdirKey path.bytes = path.bytes ++ [slash] := by
          rw [readdirKey, if_neg (path.ne_of_getLast?_slash rfl)]
        obtain ⟨servers, names, hrun, -⟩ := hexact path.bytes (.inr ⟨path, hdirs, hkey⟩)
        have hnew : z' (path.bytes ++ [slash]) = some [space] := by
          obtain rfl := Option.some.inj hz'
          rw [mkdirEntry_eq, zhtInsert_self]
        have hentry := hholds.clean _ _ hnew
        have hclean : CleanRequest (.lookup (readdirKey path.bytes)) := by
          rw [hkey]
          exact ⟨hentry.key.1, hentry.key.2.1⟩
        have hsome : (net.storeService.eval (readdirProg path.bytes) s'.1).isSome := by
          rw [hrun]
          rfl
        have hlookup : Received (.lookup (readdirKey path.bytes)) := by
          rw [hkey]
          exact (length_lookupPackage_le _ [space]).trans hmessages.1
        have hreaddir : (readdirProg path.bytes).Within (fun _ r => CleanRequest r ∧ Received r) z' :=
          ⟨⟨hclean, hlookup⟩, trivial⟩
        obtain ⟨⟨⟨-, hfits⟩, -⟩, -⟩ := hholds.within hreaddir hsome
        rw [hkey] at hfits
        exact hfits _ hnew
  | unlink path => trivial
  | rmdir path junk => trivial

end Lists

/-- **Listings are exact without spaces and overflow.** In a legal run from the servers that `main`
sets up, every operation goes through and every listing is exact, in each state, if no entry is created
with a space in its name and no message is too long for its buffer; and where the servers have room for
the requests, only if so. -/
theorem listing_exact_iff (net : ServerNet) (ops : List NsOp)
    (hlegal : Guarded (listStep net) (fun s op => ListLegal s.2 op) (listInit net) ops) :
    (Guarded (listStep net) (PlainEntry net) (listInit net) ops →
      Safe (listStep net) (ExactListing net) (listInit net) ops) ∧
    (Guarded (listStep net) (RequestsReceived net) (listInit net) ops →
      Safe (listStep net) (ExactListing net) (listInit net) ops →
        Guarded (listStep net) (PlainEntry net) (listInit net) ops) := by
  have hexact : ∀ s, (∃ z, Lists net s z) → ExactListing net s := fun s ⟨z, h⟩ => h.exactListing
  have hinit : ∃ z, Lists net (listInit net) z := ⟨_, Lists.init net⟩
  constructor
  · intro hplain
    refine safe_of_invariant hexact ?_ hinit (hlegal.and hplain)
    rintro s op ⟨z, h⟩ ⟨hl, hp⟩
    exact h.step hl hp
  · intro hreceived
    refine (safe_iff_guarded hexact ?_ ?_ hinit (hlegal.and hreceived)).mp
    · rintro s op ⟨z, h⟩ ⟨hl, -⟩ hp
      exact h.step hl hp
    · rintro s op s' ⟨z, h⟩ ⟨hl, hr⟩ hstep hlater
      refine ⟨h.listable hl hr hstep hlater, ?_⟩
      rw [h.holds.held_eq]
      exact (h.messagesFit hl hr hstep).1

end Servers

theorem listing_exact_siblings :
    Safe (listStep (plainNet [⟨cstr "n1", 50000⟩, ⟨cstr "n2", 50000⟩]))
      (ExactListing (plainNet [⟨cstr "n1", 50000⟩, ⟨cstr "n2", 50000⟩]))
      (listInit (plainNet [⟨cstr "n1", 50000⟩, ⟨cstr "n2", 50000⟩])) siblingOps :=
  (listing_exact_iff (plainNet [⟨cstr "n1", 50000⟩, ⟨cstr "n2", 50000⟩]) siblingOps
    (by decide +kernel)).1 (by decide +kernel)

/-- A file with a space in its name is listed as two. -/
theorem not_listing_exact :
    ¬∀ (net : ServerNet) (ops : List NsOp),
      Guarded (listStep net) (fun s op => ListLegal s.2 op) (listInit net) ops →
        Safe (listStep net) (ExactListing net) (listInit net) ops := by
  intro hall
  have hlegal : Guarded (listStep (plainNet [⟨cstr "n1", 50000⟩])) (fun s op => ListLegal s.2 op)
      (listInit (plainNet [⟨cstr "n1", 50000⟩]))
      [.create (filePath "/a b" (by decide)) (cstr "x")] := by decide +kernel
  obtain ⟨-, s', hstep, hexact⟩ := hall _ _ hlegal
  have hsome : (listStep (plainNet [⟨cstr "n1", 50000⟩]) (listInit (plainNet [⟨cstr "n1", 50000⟩]))
      (.create (filePath "/a b" (by decide)) (cstr "x"))).any fun s =>
        decide (((plainNet [⟨cstr "n1", 50000⟩]).storeService.eval (readdirProg [slash]) s.1).any
          (fun r => r.2.count (cstr "a") = 1) ∧ cstr "a" ∉ s.2.names [slash]) := by
    decide +kernel
  rw [hstep, Option.any_some, decide_eq_true_iff] at hsome
  obtain ⟨servers, names, hrun, hcount⟩ := hexact [slash] (.inl rfl)
  obtain ⟨hshown, hout⟩ := hsome
  rw [hrun, Option.any_some, decide_eq_true_iff, hcount,
    if_neg (show cstr "a" ∉ s'.2.names (readdirKey [slash]) from hout)] at hshown
  cases hshown

end FusionFS
