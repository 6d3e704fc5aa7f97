import FusionFS.Effects

/-!
# Failing system calls in namespace operations

An operation takes the results of its system calls down in `retstat` and goes on. What the store
looks like when a negative number is returned depends on what comes behind the call.
-/

namespace FusionFS

/-- The number a failing system call leaves in `errno`. -/
abbrev Errno := {e : Nat // 0 < e}

/-- `retstat` behind a system call: zero, or what `fusion_error` makes of its failure. -/
def retstatOf : Option Errno → Int
  | none => 0
  | some e => -(e.val : Int)

/-- An operation on an entry, with the results of its system calls. `creat`, `mkdirSsd` and
`unlinkSsd` are the calls on the path itself, the others those on its HDD counterpart. `evicted` are
the names that the eviction loop of `fusion_create` updates. -/
inductive Attempt where
  | create (path : FilePath) (addr : Bytes) (evicted : List FilePath) (creat : Option Errno)
  | mkdir (path : FilePath) (mkdirSsd mkdirHdd : Option Errno)
  | rmdir (path : FilePath) (junk : Bytes) (rmdirHdd : Option Errno)
  | unlink (path : FilePath) (unlinkHdd unlinkSsd : Option Errno)

/-- What the eviction loop writes into the store. -/
def evictKeys (addr : Bytes) (names : List Bytes) (z : Zht) : Zht :=
  names.foldl (fun z fname => zhtUpdate z fname (addr ++ [slash])) z

/-- The store after an operation, and what the operation returns. -/
def attempt (z : Zht) : Attempt → Option (Zht × Int)
  | .create path addr evicted creat =>
      some (createEntry (evictKeys addr (evicted.map FilePath.bytes) z) path.bytes addr,
        retstatOf creat)
  | .mkdir path mkdirSsd _ => some (mkdirEntry z path.bytes, retstatOf mkdirSsd)
  | .rmdir path junk rmdirHdd => (rmdirEntry junk z path.bytes).map fun r =>
      if r.2 < 0 then r else (r.1, retstatOf rmdirHdd)
  | .unlink path _ unlinkSsd => (unlinkEntry z path.bytes).map fun r =>
      if r.2 < 0 then r else (r.1, retstatOf unlinkSsd)

/-- The operation does not fail, or it fails before it has written anything. -/
def FailsClean (z : Zht) : Attempt → Prop
  | .create path addr evicted creat =>
      creat = none ∨ z path.dirname = none ∧ ∀ f ∈ evicted, z f.bytes = some (addr ++ [slash])
  | .mkdir _ mkdirSsd _ => mkdirSsd = none
  | .rmdir path junk rmdirHdd =>
      rmdirHdd = none ∨ ∀ val, z (path.bytes ++ [slash]) = some val → (realIp junk val).2 ≠ [space]
  | .unlink path _ unlinkSsd => unlinkSsd = none ∨ z path.bytes = none

variable {z z' : Zht} {ret : Int}

theorem retstatOf_neg_iff {call : Option Errno} : retstatOf call < 0 ↔ call ≠ none := by
  cases call with
  | none => simp [retstatOf]
  | some e =>
      have hpos := e.2
      simp only [retstatOf, ne_eq, reduceCtorEq, not_false_eq_true, iff_true]
      omega

theorem evictKeys_apply (addr : Bytes) (names : List Bytes) (z : Zht) (key : Bytes) :
    evictKeys addr names z key = if key ∈ names then some (addr ++ [slash]) else z key := by
  induction names generalizing z with
  | nil => rfl
  | cons fname names ih =>
      rw [evictKeys, List.foldl_cons, ← evictKeys, ih, zhtUpdate_eq_insert]
      by_cases hkey : key = fname
      · rw [hkey, zhtInsert_self, if_pos List.mem_cons_self, ite_self]
      · rw [zhtInsert_of_ne hkey]
        simp [hkey]

/-- The eviction loop of the clock cache writes the keys of its victims. -/
theorem zht_evictLoop {Node : Type} [DecidableEq Node] (net : Net Node) (n : Node)
    (full : List Bool) (c : Cluster Node) : (evictLoop net n full c).zht =
      evictKeys (net.ip n) (victims full (c.node n).queue).1 c.zht := by
  rw [evictLoop_eq, Cluster.zht_setQueue]
  generalize (victims full (c.node n).queue).1 = names
  induction names generalizing c with
  | nil => rfl
  | cons fname names ih =>
      rw [evictAll, List.foldl_cons, ← evictAll, ih, evictKeys, evictKeys, List.foldl_cons]
      rfl

theorem zhtAppend_self_ne (z : Zht) (key val : Bytes) : zhtAppend z key val key ≠ z key := by
  rw [zhtAppend, zhtUpdate_eq_insert, zhtInsert_self]
  intro heq
  have hvalue := zhtValue_of_eq heq.symm
  have hlen := congrArg List.length hvalue
  simp only [List.length_append, List.length_singleton] at hlen
  omega

theorem createEntry_ne {path : FilePath} {addr : Bytes} (h : (z path.dirname).isSome) :
    createEntry z path.bytes addr path.dirname ≠ z path.dirname := by
  obtain ⟨val, hval⟩ := Option.isSome_iff_exists.mp h
  have hval' : z (dirOf path.bytes) = some val := hval
  rw [createEntry, hval']
  dsimp only
  rw [zhtInsert_of_ne (path.ne_dirname path).symm]
  exact zhtAppend_self_ne z _ _

theorem createEntry_orphan {path : FilePath} {addr : Bytes} (h : z path.dirname = none) :
    createEntry z path.bytes addr = z := by
  have hnone : z (dirOf path.bytes) = none := h
  rw [createEntry, hnone]

theorem mkdirEntry_ne (path : FilePath) : mkdirEntry z path.bytes path.dirname ≠ z path.dirname := by
  have hne : path.dirname ≠ path.bytes ++ [slash] := path.dirname_ne_append_slash
  have hsame : zhtInsert z (path.bytes ++ [slash]) [space] path.dirname = z path.dirname :=
    zhtInsert_of_ne hne
  rw [← hsame]
  exact zhtAppend_self_ne _ _ _

theorem create_failsClean {path : FilePath} {addr : Bytes} {evicted : List FilePath}
    {creat : Option Errno} :
    (retstatOf creat < 0 →
      createEntry (evictKeys addr (evicted.map FilePath.bytes) z) path.bytes addr = z) ↔
        FailsClean z (.create path addr evicted creat) := by
  have hdirname : path.dirname ∉ evicted.map FilePath.bytes := by
    intro hmem
    obtain ⟨f, -, hf⟩ := List.mem_map.mp hmem
    exact f.ne_dirname path hf
  have hparent : evictKeys addr (evicted.map FilePath.bytes) z path.dirname = z path.dirname := by
    rw [evictKeys_apply, if_neg hdirname]
  rw [retstatOf_neg_iff]
  constructor
  · intro h
    by_cases hcreat : creat = none
    · exact .inl hcreat
    have hkept := h hcreat
    have hnone : z path.dirname = none := by
      by_contra hsome
      apply @createEntry_ne (evictKeys addr (evicted.map FilePath.bytes) z) path addr
      · rw [hparent]
        exact Option.isSome_iff_ne_none.mpr hsome
      · rw [hkept, hparent]
    refine .inr ⟨hnone, fun f hf => ?_⟩
    rw [createEntry_orphan (hparent.trans hnone)] at hkept
    rw [← hkept, evictKeys_apply, if_pos (List.mem_map_of_mem hf)]
  · rintro (hcreat | ⟨hnone, hevicted⟩) hfail
    · exact absurd hcreat hfail
    · rw [createEntry_orphan (hparent.trans hnone)]
      funext key
      rw [evictKeys_apply]
      split
      · next hmem =>
        obtain ⟨f, hf, rfl⟩ := List.mem_map.mp hmem
        exact (hevicted f hf).symm
      · rfl

theorem rmdirEntry_cases {junk path : Bytes} (h : rmdirEntry junk z path = some (z', ret)) :
    (∃ val, z (path ++ [slash]) = some val ∧ (realIp junk val).2 = [space]) ∧ ret = 0 ∧
        z' (path ++ [slash]) = none ∨
      (∀ val, z (path ++ [slash]) = some val → (realIp junk val).2 ≠ [space]) ∧ ret = -1 ∧ z' = z := by
  unfold rmdirEntry at h
  dsimp only at h
  cases hval : z (path ++ [slash]) with
  | none =>
      rw [hval] at h
      obtain ⟨rfl, rfl⟩ := Prod.mk.inj (Option.some.inj h)
      exact .inr ⟨nofun, rfl, rfl⟩
  | some val =>
      rw [hval] at h
      dsimp only at h
      split at h
      · next hempty =>
        obtain ⟨z₁, -, heq⟩ := Option.bind_eq_some_iff.mp h
        obtain ⟨rfl, rfl⟩ := Prod.mk.inj (Option.some.inj heq)
        exact .inl ⟨⟨val, rfl, hempty⟩, rfl, zhtRemove_self⟩
      · next hlisting =>
        obtain ⟨rfl, rfl⟩ := Prod.mk.inj (Option.some.inj h)
        refine .inr ⟨?_, rfl, rfl⟩
        rintro val' heq
        rwa [← Option.some.inj heq]

theorem unlinkEntry_cases {path : Bytes} (h : unlinkEntry z path = some (z', ret)) :
    (z path).isSome ∧ ret = 0 ∧ z' path = none ∨ z path = none ∧ ret = -1 ∧ z' = z := by
  unfold unlinkEntry at h
  cases hval : z path with
  | none =>
      rw [hval] at h
      obtain ⟨rfl, rfl⟩ := Prod.mk.inj (Option.some.inj h)
      exact .inr ⟨rfl, rfl, rfl⟩
  | some val =>
      rw [hval] at h
      obtain ⟨z₁, -, heq⟩ := Option.bind_eq_some_iff.mp h
      obtain ⟨rfl, rfl⟩ := Prod.mk.inj (Option.some.inj heq)
      exact .inl ⟨rfl, rfl, zhtRemove_self⟩

/-- Behind an update, what counts is whether the last call fails. -/
theorem kept_iff_of_removed {key : Bytes} {call : Option Errno} (hkey : (z key).isSome)
    (hgone : z' key = none) : (retstatOf call < 0 → z' = z) ↔ call = none := by
  rw [retstatOf_neg_iff]
  constructor
  · intro hkept
    by_contra hfail
    rw [← hkept hfail, hgone] at hkey
    cases hkey
  · exact fun hok hfail => absurd hok hfail

/-- **Failed operations change nothing** exactly when they fail before their first update. -/
theorem attempt_failsClean {a : Attempt} (h : attempt z a = some (z', ret)) :
    (ret < 0 → z' = z) ↔ FailsClean z a := by
  cases a with
  | create path addr evicted creat =>
      obtain ⟨rfl, rfl⟩ := Prod.mk.inj (Option.some.inj h)
      exact create_failsClean
  | mkdir path mkdirSsd mkdirHdd =>
      obtain ⟨rfl, rfl⟩ := Prod.mk.inj (Option.some.inj h)
      rw [retstatOf_neg_iff, FailsClean]
      constructor
      · intro hkept
        by_contra hfail
        exact mkdirEntry_ne path (congrFun (hkept hfail) path.dirname)
      · exact fun hok hfail => absurd hok hfail
  | rmdir path junk rmdirHdd =>
      obtain ⟨⟨z₁, ret₁⟩, hentry, heq⟩ := Option.map_eq_some_iff.mp h
      rcases rmdirEntry_cases hentry with ⟨⟨val, hval, hempty⟩, rfl, hgone⟩ | ⟨hlisting, rfl, rfl⟩
      · obtain ⟨rfl, rfl⟩ := Prod.mk.inj heq
        rw [kept_iff_of_removed (by rw [hval]; rfl) hgone, FailsClean]
        exact (or_iff_left fun hnot => hnot val hval hempty).symm
      · obtain ⟨rfl, rfl⟩ := Prod.mk.inj heq
        exact iff_of_true (fun _ => rfl) (.inr hlisting)
  | unlink path unlinkHdd unlinkSsd =>
      obtain ⟨⟨z₁, ret₁⟩, hentry, heq⟩ := Option.map_eq_some_iff.mp h
      rcases unlinkEntry_cases hentry with ⟨hsome, rfl, hgone⟩ | ⟨hnone, rfl, rfl⟩
      · obtain ⟨rfl, rfl⟩ := Prod.mk.inj heq
        rw [kept_iff_of_removed hsome hgone, FailsClean]
        exact (or_iff_left (Option.isSome_iff_ne_none.mp hsome)).symm
      · obtain ⟨rfl, rfl⟩ := Prod.mk.inj heq
        exact iff_of_true (fun _ => rfl) (.inr hnone)

/-- A `mkdir` that fails with `EEXIST`. -/
theorem attempt_failsClean_mkdir :
    ((-17 : Int) < 0 → mkdirEntry zhtInit (cstr "/a") = zhtInit) ↔
      FailsClean zhtInit (.mkdir ⟨cstr "/a", by decide, by decide⟩ (some ⟨17, by decide⟩) none) :=
  attempt_failsClean rfl

/-- Making a directory that exists fails, and leaves it with an empty listing. -/
theorem not_attempt_failsClean :
    (attempt (zhtInsert (zhtInsert zhtInit [slash] (cstr " a/ ")) (cstr "/a/") (cstr " f "))
      (.mkdir ⟨cstr "/a", by decide, by decide⟩ (some ⟨17, by decide⟩) (some ⟨17, by decide⟩))).map
        (fun r => (r.1 (cstr "/a/"), r.1 (cstr "/"), r.2)) =
      some (some [space], some (cstr " a/ a/ "), -17) ∧
    zhtInsert (zhtInsert zhtInit [slash] (cstr " a/ ")) (cstr "/a/") (cstr " f ") (cstr "/a/") =
      some (cstr " f ") := by
  constructor <;> decide

end FusionFS
