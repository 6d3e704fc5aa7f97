import FusionFS.Concurrent
import FusionFS.Namespace

/-!
# Removing a directory while entries are made in it

`fusion_rmdir` looks at the value of the directory long before it removes its key, and a creator that
has found the directory there appends to it and inserts its own key later. Which of them comes last
decides whether the new entry has a parent.
-/

namespace FusionFS

open Transition Interleave

/-- An operation, as the requests it sends. `junk` is what `real_ip` finds in its buffer. -/
inductive Task where
  | rmdir (path : FilePath) (junk : Bytes)
  | create (path : FilePath) (addr : Bytes)
  | mkdir (path : FilePath)

/-- What a task does next: its first request, a request of the `zht_delete` or `zht_append` in it, or
the last one. -/
inductive Phase where
  | first
  | call (t : Stage)
  | last
  | done (ok : Bool)
  deriving DecidableEq

namespace Task

/-- The key of the entry itself. -/
def entry : Task → Bytes
  | rmdir path _ => path.bytes ++ [slash]
  | create path _ => path.bytes
  | mkdir path => path.bytes ++ [slash]

/-- The call that edits the value of the parent. -/
def inner : Task → Call
  | rmdir path _ => .delete path.dirname (path.fname ++ [slash])
  | create path _ => .append path.dirname path.fname
  | mkdir path => .append path.dirname (path.fname ++ [slash])

def after : Task → Phase
  | rmdir _ _ => .last
  | create _ _ => .last
  | mkdir _ => .done true

/-- The next request of a task, and the store behind it. -/
def request (task : Task) (z : Zht) : Phase → Option (Zht × Phase)
  | .first =>
      match task with
      | rmdir _ junk =>
          match z task.entry with
          | none => some (z, .done false)
          | some val =>
              if (realIp junk val).2 = [space] then some (z, .call .start) else some (z, .done false)
      | create path _ =>
          match z path.dirname with
          | none => some (z, .done false)
          | some _ => some (z, .call .start)
      | mkdir _ => some (zhtInsert z task.entry [space], .call .start)
  | .call t => (task.inner.request z t).map fun r =>
      (r.1, match r.2 with
        | .done _ => task.after
        | t' => .call t')
  | .last =>
      match task with
      | rmdir _ _ => some (zhtRemove z task.entry, .done true)
      | create _ addr => some (zhtInsert z task.entry addr, .done true)
      | mkdir _ => none
  | .done _ => none

end Task

abbrev Nodes (n : Nat) := World (Fin n) Zht Phase

variable {n : Nat}

def serveTask (tasks : Fin n → Task) : Nodes n → Fin n → Option (Nodes n) :=
  turn fun i => (tasks i).request

def nodesInit (n : Nat) (z : Zht) : Nodes n := ⟨z, fun _ => .first⟩

/-- Node `r` removes the directory `d`, and all others make entries in it. -/
def Contest (tasks : Fin n → Task) (r : Fin n) (d : FilePath) : Prop :=
  (∃ junk, tasks r = .rmdir d junk) ∧ ∀ j, j ≠ r → ∃ p : FilePath,
    p.dirname = d.bytes ++ [slash] ∧ ((∃ addr, tasks j = .create p addr) ∨ tasks j = .mkdir p)

/-- Each key's parent directory key exists. -/
def Rooted (z : Zht) : Prop :=
  ∀ p : FilePath, (z p.bytes).isSome ∨ (z (p.bytes ++ [slash])).isSome → (z p.dirname).isSome

/-- What the store is like between operations: no orphans, and nothing below a directory that looks
empty. -/
structure Consistent (z : Zht) : Prop where
  rooted : Rooted z
  empty : ∀ (d : FilePath) junk val, z (d.bytes ++ [slash]) = some val →
    (realIp junk val).2 = [space] → ∀ p : FilePath, p.dirname = d.bytes ++ [slash] →
      z p.bytes = none ∧ z (p.bytes ++ [slash]) = none

theorem Tree.consistent {z : Zht} (h : Tree z) : Consistent z where
  rooted := by
    rintro p (hp | hp)
    · exact (h.token p.getLast?_dirname (h.parent_file p hp).1).2.1
    · exact (h.token p.getLast?_dirname (h.parent_dir p hp).1).2.1
  empty := by
    intro d junk val hval hempty p hp
    have hslash : (d.bytes ++ [slash]).getLast? = some slash := List.getLast?_concat
    obtain ⟨henc, -, hmem⟩ := h.listing _ hslash (by rw [hval]; rfl)
    rw [hval, Option.some.injEq] at henc
    rw [henc] at hempty
    have hnil := realIp_listing (fun w hw => (hmem w hw).1) hempty
    constructor
    · by_contra hsome
      rw [← Ne, Option.ne_none_iff_isSome] at hsome
      have hin := (h.parent_file p hsome).1
      rw [hp, hnil] at hin
      cases hin
    · by_contra hsome
      rw [← Ne, Option.ne_none_iff_isSome] at hsome
      have hin := (h.parent_dir p hsome).1
      rw [hp, hnil] at hin
      cases hin

/-! ### What a request does -/

/-- The directory's value has been inserted by this creator. -/
def Phase.Past : Phase → Prop
  | call .check => True
  | last => True
  | done true => True
  | _ => False

/-- The creator is going to insert the directory's value. -/
def Pending (task : Task) : Phase → Prop
  | .first => ∃ p, task = .mkdir p
  | .call .start => True
  | .call (.remove _) => True
  | .call (.insert _) => True
  | _ => False

/-- A turn of a node that makes an entry in the directory with the key `dir`. -/
inductive Makes (task : Task) (dir : Bytes) (z z' : Zht) : Phase → Phase → Prop where
  | refused (htask : ∀ p, task ≠ .mkdir p) (hdir : z dir = none) (hshared : z' = z) :
      Makes task dir z z' .first (.done false)
  | found (htask : ∀ p, task ≠ .mkdir p) (hdir : (z dir).isSome) (hshared : z' = z) :
      Makes task dir z z' .first (.call .start)
  | entry (p : FilePath) (htask : task = .mkdir p) (hshared : z' = zhtInsert z task.entry [space]) :
      Makes task dir z z' .first (.call .start)
  | compute (v : Bytes) (hshared : z' = z) : Makes task dir z z' (.call .start) (.call (.remove v))
  | remove (v : Bytes) (hshared : z' = zhtRemove z dir) :
      Makes task dir z z' (.call (.remove v)) (.call (.insert v))
  | insert (v : Bytes) (hshared : z' = zhtInsert z dir v) :
      Makes task dir z z' (.call (.insert v)) (.call .check)
  | check (hshared : z' = z) : Makes task dir z z' (.call .check) task.after
  | last (val : Bytes) (hshared : z' = zhtInsert z task.entry val) :
      Makes task dir z z' .last (.done true)

namespace Makes

variable {task : Task} {dir : Bytes} {z z' : Zht} {t t' : Phase}

theorem past (h : Makes task dir z z' t t') (hafter : task.after.Past) : t.Past → t'.Past := by
  cases h with
  | check => exact fun _ => hafter
  | last => exact fun _ => trivial
  | _ => exact fun hp => hp.elim

theorem active (h : Makes task dir z z' t t') (hafter : task.after.Past) :
    t.Past ∨ Pending task t → t'.Past ∨ Pending task t' := by
  cases h with
  | refused htask => exact fun hp => hp.elim False.elim fun ⟨p, hp⟩ => absurd hp (htask p)
  | insert => exact fun _ => .inl trivial
  | check => exact fun _ => .inl hafter
  | last => exact fun _ => .inl trivial
  | _ => exact fun _ => .inr trivial

theorem value (h : Makes task dir z z' t t') (hdir : dir ≠ task.entry) :
    (z' dir).isSome ∧ t'.Past ∨ Pending task t' ∧ (z' dir = z dir ∨ z' dir = none) ∨
      z' dir = z dir ∧ ¬Pending task t ∧ (t'.Past → t.Past) := by
  cases h with
  | refused htask _ hshared =>
      exact .inr (.inr ⟨by rw [hshared], fun ⟨p, hp⟩ => htask p hp, fun hp => hp.elim⟩)
  | found _ _ hshared => exact .inr (.inl ⟨trivial, .inl (by rw [hshared])⟩)
  | entry _ _ hshared => exact .inr (.inl ⟨trivial, .inl (by rw [hshared, zhtInsert_of_ne hdir])⟩)
  | compute _ hshared => exact .inr (.inl ⟨trivial, .inl (by rw [hshared])⟩)
  | remove _ hshared => exact .inr (.inl ⟨trivial, .inr (by rw [hshared, zhtRemove_self])⟩)
  | insert _ hshared => exact .inl ⟨by rw [hshared, zhtInsert_self]; rfl, trivial⟩
  | check hshared => exact .inr (.inr ⟨by rw [hshared], id, fun _ => trivial⟩)
  | last _ hshared =>
      exact .inr (.inr ⟨by rw [hshared, zhtInsert_of_ne hdir], id, fun _ => trivial⟩)

/-- Of the other keys, only that of the entry changes. -/
theorem elsewhere (h : Makes task dir z z' t t') (hafter : task.after.Past) {k : Bytes} (hk : k ≠ dir) :
    z' k = z k ∨ k = task.entry ∧ (t'.Past ∨ Pending task t') := by
  by_cases hki : k = task.entry
  · cases h with
    | refused _ _ hshared => exact .inl (by rw [hshared])
    | insert => exact .inr ⟨hki, .inl trivial⟩
    | check => exact .inr ⟨hki, .inl hafter⟩
    | last => exact .inr ⟨hki, .inl trivial⟩
    | _ => exact .inr ⟨hki, .inr trivial⟩
  · left
    cases h with
    | entry _ _ hshared => rw [hshared, zhtInsert_of_ne hki]
    | remove _ hshared => rw [hshared, zhtRemove_of_ne hk]
    | insert _ hshared => rw [hshared, zhtInsert_of_ne hk]
    | last _ hshared => rw [hshared, zhtInsert_of_ne hki]
    | refused _ _ hshared => rw [hshared]
    | found _ _ hshared => rw [hshared]
    | compute _ hshared => rw [hshared]
    | check hshared => rw [hshared]

end Makes

/-- A turn of the node that removes the directory. -/
inductive Removes (dir parent : Bytes) (z z' : Zht) : Phase → Phase → Prop where
  | refused (hshared : z' = z) : Removes dir parent z z' .first (.done false)
  | empty (junk val : Bytes) (hdir : z dir = some val) (hempty : (realIp junk val).2 = [space])
      (hshared : z' = z) : Removes dir parent z z' .first (.call .start)
  | compute (v : Bytes) (hshared : z' = z) : Removes dir parent z z' (.call .start) (.call (.remove v))
  | remove (v : Bytes) (hshared : z' = zhtRemove z parent) :
      Removes dir parent z z' (.call (.remove v)) (.call (.insert v))
  | insert (v : Bytes) (hshared : z' = zhtInsert z parent v) :
      Removes dir parent z z' (.call (.insert v)) (.call .check)
  | check (hshared : z' = z) : Removes dir parent z z' (.call .check) .last
  | last (hshared : z' = zhtRemove z dir) : Removes dir parent z z' .last (.done true)

theorem makes_of_request {task : Task} {p : FilePath} {z z' : Zht} {t t' : Phase}
    (htask : (∃ addr, task = .create p addr) ∨ task = .mkdir p)
    (h : task.request z t = some (z', t')) : Makes task p.dirname z z' t t' := by
  cases t with
  | first =>
      rcases htask with ⟨addr, rfl⟩ | rfl
      · cases hdir : z p.dirname with
        | none =>
            simp only [Task.request, hdir] at h
            obtain ⟨rfl, rfl⟩ := Prod.mk.inj (Option.some.inj h)
            exact .refused nofun hdir rfl
        | some val =>
            simp only [Task.request, hdir] at h
            obtain ⟨rfl, rfl⟩ := Prod.mk.inj (Option.some.inj h)
            exact .found nofun (by rw [hdir]; rfl) rfl
      · obtain ⟨rfl, rfl⟩ := Prod.mk.inj (Option.some.inj h)
        exact .entry p rfl rfl
  | call s =>
      have hinner : ∃ val, task.inner = .append p.dirname val := by
        rcases htask with ⟨addr, rfl⟩ | rfl
        · exact ⟨_, rfl⟩
        · exact ⟨_, rfl⟩
      obtain ⟨val, hinner⟩ := hinner
      obtain ⟨⟨z₁, s'⟩, hrequest, heq⟩ := Option.map_eq_some_iff.mp h
      obtain ⟨rfl, rfl⟩ := Prod.mk.inj heq
      have hserved := Call.request_cases hrequest
      rw [hinner] at hserved
      cases hserved with
      | compute v _ _ hshared => exact .compute v hshared
      | overwrite v _ hedit _ =>
          have hnil := (hedit []).trans (hedit [space]).symm
          simp [Call.edit] at hnil
      | remove v hshared => exact .remove v hshared
      | insert v hshared => exact .insert v hshared
      | lookup hlookup _ => cases hlookup
      | check hshared => exact .check hshared
  | last =>
      rcases htask with ⟨addr, rfl⟩ | rfl
      · obtain ⟨rfl, rfl⟩ := Prod.mk.inj (Option.some.inj h)
        exact .last addr rfl
      · cases h
  | done ok => cases h

theorem removes_of_request {d : FilePath} {junk : Bytes} {z z' : Zht} {t t' : Phase}
    (h : (Task.rmdir d junk).request z t = some (z', t')) :
    Removes (d.bytes ++ [slash]) d.dirname z z' t t' := by
  cases t with
  | first =>
      cases hdir : z (d.bytes ++ [slash]) with
      | none =>
          simp only [Task.request, Task.entry, hdir] at h
          obtain ⟨rfl, rfl⟩ := Prod.mk.inj (Option.some.inj h)
          exact .refused rfl
      | some val =>
          simp only [Task.request, Task.entry, hdir] at h
          split at h
          · next hempty =>
            obtain ⟨rfl, rfl⟩ := Prod.mk.inj (Option.some.inj h)
            exact .empty junk val hdir hempty rfl
          · obtain ⟨rfl, rfl⟩ := Prod.mk.inj (Option.some.inj h)
            exact .refused rfl
  | call s =>
      obtain ⟨⟨z₁, s'⟩, hrequest, heq⟩ := Option.map_eq_some_iff.mp h
      obtain ⟨rfl, rfl⟩ := Prod.mk.inj heq
      have hserved := Call.request_cases hrequest
      rw [Task.inner] at hserved
      cases hserved with
      | compute v _ _ hshared => exact .compute v hshared
      | overwrite v _ hedit _ => cases hedit []
      | remove v hshared => exact .remove v hshared
      | insert v hshared => exact .insert v hshared
      | lookup hlookup _ => cases hlookup
      | check hshared => exact .check hshared
  | last =>
      obtain ⟨rfl, rfl⟩ := Prod.mk.inj (Option.some.inj h)
      exact .last rfl
  | done ok => cases h

/-! ### The contested directory -/

section

variable {tasks : Fin n → Task} {r : Fin n} {d : FilePath} {z₀ : Zht} {w w' : Nodes n} {i : Fin n}

theorem contest_cases (hc : Contest tasks r d) (hstep : serveTask tasks w i = some w') :
    (i = r ∧ Removes (d.bytes ++ [slash]) d.dirname w.shared w'.shared (w.procs i) (w'.procs i) ∨
      i ≠ r ∧ Makes (tasks i) (d.bytes ++ [slash]) w.shared w'.shared (w.procs i) (w'.procs i)) ∧
        ∀ j, j ≠ i → w'.procs j = w.procs j := by
  obtain ⟨z, t, hrequest, rfl, rfl, hother⟩ := turn_cases hstep
  refine ⟨?_, hother⟩
  by_cases hir : i = r
  · obtain ⟨junk, hjunk⟩ := hc.1
    rw [hir, hjunk, ← hir] at hrequest
    exact .inl ⟨hir, removes_of_request hrequest⟩
  · obtain ⟨p, hp, htask⟩ := hc.2 i hir
    rw [← hp]
    exact .inr ⟨hir, makes_of_request htask hrequest⟩

theorem FilePath.length_dirname_lt (p : FilePath) : p.dirname.length < p.bytes.length := by
  have hlen := congrArg List.length p.dirname_append_fname
  have hpos := List.length_pos_iff.mpr p.fname_ne_nil
  rw [List.length_append] at hlen
  omega

theorem Contest.entry_length (hc : Contest tasks r d) {j : Fin n} (hj : j ≠ r) :
    (d.bytes ++ [slash]).length < (tasks j).entry.length := by
  obtain ⟨p, hp, htask⟩ := hc.2 j hj
  have hlt := p.length_dirname_lt
  rw [hp] at hlt
  rcases htask with ⟨addr, htask⟩ | htask
  · rwa [htask, Task.entry]
  · rw [htask, Task.entry]
    exact hlt.trans_le (by simp)

theorem parent_length (d : FilePath) : d.dirname.length < (d.bytes ++ [slash]).length := by
  have hlt := d.length_dirname_lt
  rw [List.length_append]
  omega

theorem Contest.entry_ne (hc : Contest tasks r d) {j : Fin n} (hj : j ≠ r) :
    (tasks j).entry ≠ d.bytes ++ [slash] ∧ (tasks j).entry ≠ d.dirname := by
  have hentry := hc.entry_length hj
  have hparent := parent_length d
  constructor <;> intro heq <;> rw [heq] at hentry <;> omega

theorem parent_ne (d : FilePath) : d.dirname ≠ d.bytes ++ [slash] := d.dirname_ne_append_slash

/-- The path with a creator's key is in the directory. -/
theorem Contest.dirname_of_entry (hc : Contest tasks r d) {j : Fin n} (hj : j ≠ r) {p : FilePath}
    (hp : (tasks j).entry = p.bytes ∨ (tasks j).entry = p.bytes ++ [slash]) :
    p.dirname = d.bytes ++ [slash] := by
  obtain ⟨q, hq, htask⟩ := hc.2 j hj
  have hqp : q = p := by
    apply FilePath.ext_bytes
    rcases htask with ⟨addr, htask⟩ | htask <;> rw [htask, Task.entry] at hp <;> rcases hp with hp | hp
    · exact hp
    · exact absurd hp (q.ne_of_getLast?_slash List.getLast?_concat)
    · exact absurd hp.symm (p.ne_of_getLast?_slash List.getLast?_concat)
    · exact List.append_inj_left' hp rfl
  rw [← hqp, hq]

theorem Contest.isSome_of_turn (hc : Contest tasks r d) (hstep : serveTask tasks w i = some w')
    {k : Bytes} (hdir : k ≠ d.bytes ++ [slash]) (hparent : k ≠ d.dirname)
    (hk : (w.shared k).isSome) : (w'.shared k).isSome := by
  obtain ⟨hturn, -⟩ := contest_cases hc hstep
  rcases hturn with ⟨-, hturn⟩ | ⟨-, hturn⟩
  · generalize w.procs i = t at hturn
    generalize w'.procs i = t' at hturn
    cases hturn with
    | refused hshared => rwa [hshared]
    | empty _ _ _ _ hshared => rwa [hshared]
    | compute _ hshared => rwa [hshared]
    | remove _ hshared => rwa [hshared, zhtRemove_of_ne hparent]
    | insert _ hshared => rwa [hshared, zhtInsert_of_ne hparent]
    | check hshared => rwa [hshared]
    | last hshared => rwa [hshared, zhtRemove_of_ne hdir]
  · generalize w.procs i = t at hturn
    generalize w'.procs i = t' at hturn
    have hinsert : ∀ v, (zhtInsert w.shared (tasks i).entry v k).isSome := by
      intro v
      by_cases hki : k = (tasks i).entry
      · rw [hki, zhtInsert_self]
        rfl
      · rwa [zhtInsert_of_ne hki]
    cases hturn with
    | refused _ _ hshared => rwa [hshared]
    | found _ _ hshared => rwa [hshared]
    | entry _ _ hshared => rw [hshared]; exact hinsert _
    | compute _ hshared => rwa [hshared]
    | remove _ hshared => rwa [hshared, zhtRemove_of_ne hdir]
    | insert _ hshared => rwa [hshared, zhtInsert_of_ne hdir]
    | check hshared => rwa [hshared]
    | last _ hshared => rw [hshared]; exact hinsert _

/-- What holds in any order of requests. A creator that is through has its key in the store. -/
def Made (tasks : Fin n → Task) (r : Fin n) (w : Nodes n) : Prop :=
  ∀ j, j ≠ r → (w.procs j = .done true ∨ w.procs j ≠ .first ∧ ∃ p, tasks j = .mkdir p) →
    (w.shared (tasks j).entry).isSome

theorem Made.step (hc : Contest tasks r d) (h : Made tasks r w)
    (hstep : serveTask tasks w i = some w') : Made tasks r w' := by
  obtain ⟨hturn, hother⟩ := contest_cases hc hstep
  intro j hj hmade
  obtain ⟨hdir, hparent⟩ := hc.entry_ne hj
  by_cases hji : j = i
  · subst hji
    obtain ⟨-, hturn⟩ := hturn.resolve_left fun hr => hj hr.1
    by_cases hbefore : w.procs j = .done true ∨ w.procs j ≠ .first ∧ ∃ p, tasks j = .mkdir p
    · exact hc.isSome_of_turn hstep hdir hparent (h j hj hbefore)
    · generalize w.procs j = t at hturn hbefore
      generalize w'.procs j = t' at hturn hmade
      cases hturn with
      | refused htask => exact (hmade.elim nofun fun ⟨_, p, hp⟩ => absurd hp (htask p))
      | found htask => exact (hmade.elim nofun fun ⟨_, p, hp⟩ => absurd hp (htask p))
      | entry _ _ hshared => rw [hshared, zhtInsert_self]; rfl
      | compute => exact absurd (.inr ⟨nofun, (hmade.resolve_left nofun).2⟩) hbefore
      | remove => exact absurd (.inr ⟨nofun, (hmade.resolve_left nofun).2⟩) hbefore
      | insert => exact absurd (.inr ⟨nofun, (hmade.resolve_left nofun).2⟩) hbefore
      | check =>
          obtain ⟨p, -, ⟨addr, htask⟩ | htask⟩ := hc.2 j hj
          · rw [htask] at hmade
            exact hmade.elim nofun fun ⟨_, q, hq⟩ => nomatch hq
          · exact absurd (.inr ⟨nofun, p, htask⟩) hbefore
      | last _ hshared => rw [hshared, zhtInsert_self]; rfl
  · rw [hother j hji] at hmade
    exact hc.isSome_of_turn hstep hdir hparent (h j hj hmade)

/-! ### No orphans -/

/-- When the directory's key is removed, no creator has inserted it or one is still going to. -/
def KeepsParent (tasks : Fin n → Task) (r : Fin n) (w : Nodes n) (i : Fin n) : Prop :=
  i = r → w.procs r = .last → (∃ j, j ≠ r ∧ (w.procs j).Past) → ∃ j, j ≠ r ∧ Pending (tasks j) (w.procs j)

/-- What holds as long as the key is removed in time. -/
structure Held (tasks : Fin n → Task) (r : Fin n) (d : FilePath) (z₀ : Zht) (w : Nodes n) : Prop where
  kept : ∀ k, k ≠ d.bytes ++ [slash] → k ≠ d.dirname → (z₀ k).isSome → (w.shared k).isSome
  parent : (w.shared d.dirname).isSome ∨ ∃ v, w.procs r = .call (.insert v)
  new : ∀ k, (w.shared k).isSome → (z₀ k).isSome ∨
    ∃ j, j ≠ r ∧ (tasks j).entry = k ∧ ((w.procs j).Past ∨ Pending (tasks j) (w.procs j))
  dir : (w.shared (d.bytes ++ [slash])).isSome ∨ (∃ j, j ≠ r ∧ Pending (tasks j) (w.procs j)) ∨
    w.procs r = .done true ∧ ∀ j, j ≠ r → ¬(w.procs j).Past
  value : w.procs r ≠ .done true → (∀ j, j ≠ r → ¬(w.procs j).Past) →
    ∀ val, w.shared (d.bytes ++ [slash]) = some val → z₀ (d.bytes ++ [slash]) = some val
  empty : w.procs r ≠ .first → w.procs r ≠ .done false → (∃ j, j ≠ r ∧ (w.procs j).Past) ∨
    ∀ p : FilePath, p.dirname = d.bytes ++ [slash] → z₀ p.bytes = none ∧ z₀ (p.bytes ++ [slash]) = none

namespace Held

theorem init (hz : Consistent z₀) (hd : (z₀ (d.bytes ++ [slash])).isSome) :
    Held tasks r d z₀ (nodesInit n z₀) where
  kept _ _ _ hk := hk
  parent := .inl (hz.rooted d (.inr hd))
  new _ hk := .inl hk
  dir := .inl hd
  value _ _ _ hval := hval
  empty h := absurd rfl h

/-- A creator's turn. It gets further, and changes the directory's value on the way. -/
theorem make (h : Held tasks r d z₀ w) (hc : Contest tasks r d) (hd : (z₀ (d.bytes ++ [slash])).isSome)
    (hstep : serveTask tasks w i = some w') (hi : i ≠ r) : Held tasks r d z₀ w' := by
  obtain ⟨hturn, hother⟩ := contest_cases hc hstep
  obtain ⟨-, hturn⟩ := hturn.resolve_left fun hr => hi hr.1
  have hr : w'.procs r = w.procs r := hother r hi.symm
  obtain ⟨hdir, hparent⟩ := hc.entry_ne hi
  have hafter : (tasks i).after.Past := by
    obtain ⟨p, -, ⟨addr, htask⟩ | htask⟩ := hc.2 i hi <;> rw [htask] <;> trivial
  have hpast := hturn.past hafter
  have hactive := hturn.active hafter
  have hvalue := hturn.value hdir.symm
  have hrest : ∀ k, k ≠ d.bytes ++ [slash] → w'.shared k = w.shared k ∨
      k = (tasks i).entry ∧ ((w'.procs i).Past ∨ Pending (tasks i) (w'.procs i)) :=
    fun k hk => hturn.elsewhere hafter hk
  have hpasts : (∃ j, j ≠ r ∧ (w.procs j).Past) → ∃ j, j ≠ r ∧ (w'.procs j).Past := by
    rintro ⟨j, hj, hp⟩
    by_cases hji : j = i
    · exact ⟨i, hi, hpast (hji ▸ hp)⟩
    · exact ⟨j, hj, by rwa [hother j hji]⟩
  refine ⟨fun k hk hk' hsome => hc.isSome_of_turn hstep hk hk' (h.kept k hk hk' hsome), ?_,
    fun k hk => ?_, ?_, fun hrun hnone val hval => ?_, fun hfirst hfailed => ?_⟩
  · have hsame := (hrest d.dirname (parent_ne d)).resolve_right fun heq => hparent heq.1.symm
    rw [hsame, hr]
    exact h.parent
  · by_cases hkd : k = d.bytes ++ [slash]
    · exact .inl (hkd ▸ hd)
    · rcases hrest k hkd with hsame | ⟨hentry, hnow⟩
      · rw [hsame] at hk
        refine (h.new k hk).imp_right ?_
        rintro ⟨j, hj, hjk, hp⟩
        by_cases hji : j = i
        · exact ⟨i, hi, hji ▸ hjk, hactive (hji ▸ hp)⟩
        · exact ⟨j, hj, hjk, by rwa [hother j hji]⟩
      · exact .inr ⟨i, hi, hentry.symm, hnow⟩
  · rcases hvalue with ⟨hsome, -⟩ | ⟨hpending, -⟩ | ⟨hsame, hidle, hback⟩
    · exact .inl hsome
    · exact .inr (.inl ⟨i, hi, hpending⟩)
    · rw [hsame, hr]
      refine h.dir.imp_right (Or.imp ?_ (And.imp_right ?_))
      · rintro ⟨j, hj, hp⟩
        have hji : j ≠ i := fun heq => hidle (heq ▸ hp)
        exact ⟨j, hj, by rwa [hother j hji]⟩
      · intro hnone j hj hp
        by_cases hji : j = i
        · exact hnone i hi (hback (hji ▸ hp))
        · exact hnone j hj (by rwa [← hother j hji])
  · have hnone' : ∀ j, j ≠ r → ¬(w.procs j).Past := fun j hj hp =>
      (hpasts ⟨j, hj, hp⟩).elim fun l hl => hnone l hl.1 hl.2
    have hold : w'.shared (d.bytes ++ [slash]) = w.shared (d.bytes ++ [slash]) := by
      rcases hvalue with ⟨-, hp⟩ | ⟨-, hsame | hgone⟩ | ⟨hsame, -⟩
      · exact absurd hp (hnone i hi)
      · exact hsame
      · rw [hgone] at hval
        cases hval
      · exact hsame
    rw [hr] at hrun
    exact h.value hrun hnone' val (hold ▸ hval)
  · rw [hr] at hfirst hfailed
    exact (h.empty hfirst hfailed).imp_left hpasts

/-- A turn of the remover that leaves the directory's key alone. -/
theorem carry (h : Held tasks r d z₀ w) (hp : (z₀ d.dirname).isSome)
    (hother : ∀ j, j ≠ r → w'.procs j = w.procs j)
    (hsame : ∀ k, k ≠ d.dirname → w'.shared k = w.shared k) (hrun : w.procs r ≠ .done true)
    (hparent : (w'.shared d.dirname).isSome ∨ ∃ v, w'.procs r = .call (.insert v))
    (hempty : w'.procs r ≠ .first → w'.procs r ≠ .done false → (∃ j, j ≠ r ∧ (w.procs j).Past) ∨
      ∀ p : FilePath, p.dirname = d.bytes ++ [slash] →
        z₀ p.bytes = none ∧ z₀ (p.bytes ++ [slash]) = none) : Held tasks r d z₀ w' := by
  have hdir := hsame _ (parent_ne d).symm
  have hpasts : (∃ j, j ≠ r ∧ (w.procs j).Past) → ∃ j, j ≠ r ∧ (w'.procs j).Past := by
    rintro ⟨j, hj, hjp⟩
    exact ⟨j, hj, by rwa [hother j hj]⟩
  refine ⟨fun k hk hk' hsome => ?_, hparent, fun k hk => ?_, ?_, fun _ hnone val hval => ?_,
    fun hfirst hfailed => (hempty hfirst hfailed).imp_left hpasts⟩
  · rw [hsame k hk']
    exact h.kept k hk hk' hsome
  · by_cases hkp : k = d.dirname
    · exact .inl (hkp ▸ hp)
    · rw [hsame k hkp] at hk
      refine (h.new k hk).imp_right ?_
      rintro ⟨j, hj, hjk, hjp⟩
      exact ⟨j, hj, hjk, by rwa [hother j hj]⟩
  · rcases h.dir with hsome | ⟨j, hj, hjp⟩ | ⟨hdone, -⟩
    · exact .inl (by rwa [hdir])
    · exact .inr (.inl ⟨j, hj, by rwa [hother j hj]⟩)
    · exact absurd hdone hrun
  · rw [hdir] at hval
    apply h.value hrun _ val hval
    intro j hj hjp
    exact hnone j hj (by rwa [hother j hj])

theorem remove (h : Held tasks r d z₀ w) (hc : Contest tasks r d) (hz : Consistent z₀)
    (hd : (z₀ (d.bytes ++ [slash])).isSome) (hstep : serveTask tasks w r = some w')
    (hkeeps : KeepsParent tasks r w r) : Held tasks r d z₀ w' := by
  obtain ⟨hturn, hother⟩ := contest_cases hc hstep
  obtain ⟨-, hturn⟩ := hturn.resolve_right fun hr => hr.1 rfl
  have hp : (z₀ d.dirname).isSome := hz.rooted d (.inr hd)
  have hempty := h.empty
  have hparent := h.parent
  have hvalue := h.value
  have hkept := fun k hk hk' hsome => hc.isSome_of_turn hstep hk hk' (h.kept k hk hk' hsome)
  generalize ht : w.procs r = t at hturn hempty hparent hvalue
  generalize ht' : w'.procs r = t' at hturn
  cases hturn with
  | refused hshared =>
      refine h.carry hp hother (fun k _ => by rw [hshared]) (by rw [ht]; exact nofun) ?_ ?_
      · rw [hshared]
        exact .inl (hparent.resolve_right fun ⟨v, hv⟩ => nomatch hv)
      · exact fun _ hfailed => absurd ht' hfailed
  | empty junk val hdir hcut hshared =>
      refine h.carry hp hother (fun k _ => by rw [hshared]) (by rw [ht]; exact nofun) ?_ fun _ _ => ?_
      · rw [hshared]
        exact .inl (hparent.resolve_right fun ⟨v, hv⟩ => nomatch hv)
      · by_cases hpast : ∃ j, j ≠ r ∧ (w.procs j).Past
        · exact .inl hpast
        · have hold := hvalue nofun (fun j hj hjp => hpast ⟨j, hj, hjp⟩) val hdir
          exact .inr (hz.empty d junk val hold hcut)
  | compute v hshared =>
      refine h.carry hp hother (fun k _ => by rw [hshared]) (by rw [ht]; exact nofun) ?_
        fun _ _ => hempty nofun nofun
      rw [hshared]
      exact .inl (hparent.resolve_right fun ⟨v, hv⟩ => nomatch hv)
  | remove v hshared =>
      exact h.carry hp hother (fun k hk => by rw [hshared, zhtRemove_of_ne hk]) (by rw [ht]; exact nofun)
        (.inr ⟨v, ht'⟩) fun _ _ => hempty nofun nofun
  | insert v hshared =>
      refine h.carry hp hother (fun k hk => by rw [hshared, zhtInsert_of_ne hk])
        (by rw [ht]; exact nofun) (.inl ?_) fun _ _ => hempty nofun nofun
      rw [hshared, zhtInsert_self]
      rfl
  | check hshared =>
      refine h.carry hp hother (fun k _ => by rw [hshared]) (by rw [ht]; exact nofun) ?_
        fun _ _ => hempty nofun nofun
      rw [hshared]
      exact .inl (hparent.resolve_right fun ⟨v, hv⟩ => nomatch hv)
  | last hshared =>
      have hpasts : ∀ j, j ≠ r → (w'.procs j).Past → (w.procs j).Past := fun j hj => by
        rw [hother j hj]
        exact id
      refine ⟨hkept, ?_, fun k hk => ?_, ?_, fun hrun => absurd ht' hrun, fun _ _ => ?_⟩
      · rw [hshared, zhtRemove_of_ne (parent_ne d)]
        exact .inl (hparent.resolve_right fun ⟨v, hv⟩ => nomatch hv)
      · by_cases hkd : k = d.bytes ++ [slash]
        · exact .inl (hkd ▸ hd)
        · rw [hshared, zhtRemove_of_ne hkd] at hk
          refine (h.new k hk).imp_right ?_
          rintro ⟨j, hj, hjk, hjp⟩
          exact ⟨j, hj, hjk, by rwa [hother j hj]⟩
      · right
        by_cases hpast : ∃ j, j ≠ r ∧ (w.procs j).Past
        · obtain ⟨j, hj, hjp⟩ := hkeeps rfl ht hpast
          exact .inl ⟨j, hj, by rwa [hother j hj]⟩
        · exact .inr ⟨ht', fun j hj hjp => hpast ⟨j, hj, hpasts j hj hjp⟩⟩
      · refine (hempty nofun nofun).imp_left ?_
        rintro ⟨j, hj, hjp⟩
        exact ⟨j, hj, by rwa [hother j hj]⟩

theorem not_pending_done {task : Task} {ok : Bool} : ¬Pending task (.done ok) := by
  cases ok <;> exact id

/-- Once all tasks are done every key has its parent. -/
theorem rooted (h : Held tasks r d z₀ w) (hc : Contest tasks r d) (hz : Consistent z₀)
    (hdone : ∀ i, ∃ ok, w.procs i = .done ok) : Rooted w.shared := by
  have hidle : ∀ j, ¬Pending (tasks j) (w.procs j) := by
    intro j
    obtain ⟨ok, hok⟩ := hdone j
    rw [hok]
    exact not_pending_done
  have hparent : (w.shared d.dirname).isSome := by
    refine h.parent.resolve_right ?_
    rintro ⟨v, hv⟩
    obtain ⟨ok, hok⟩ := hdone r
    rw [hok] at hv
    cases hv
  have hdir : (w.shared (d.bytes ++ [slash])).isSome ∨
      w.procs r = .done true ∧ ∀ j, j ≠ r → ¬(w.procs j).Past :=
    h.dir.imp_right fun hrest => hrest.resolve_left fun ⟨j, _, hj⟩ => hidle j hj
  intro p hp
  have hkey : ∃ k, (k = p.bytes ∨ k = p.bytes ++ [slash]) ∧ (w.shared k).isSome := by
    rcases hp with hp | hp
    · exact ⟨_, .inl rfl, hp⟩
    · exact ⟨_, .inr rfl, hp⟩
  obtain ⟨k, hk, hsome⟩ := hkey
  rcases h.new k hsome with hold | ⟨j, hj, hjk, hjp⟩
  · have hrooted : (z₀ p.dirname).isSome := by
      apply hz.rooted p
      rcases hk with rfl | rfl
      · exact .inl hold
      · exact .inr hold
    by_cases hpd : p.dirname = d.bytes ++ [slash]
    · rw [hpd]
      refine hdir.resolve_right ?_
      rintro ⟨hremoved, hnone⟩
      rcases h.empty (by rw [hremoved]; exact nofun) (by rw [hremoved]; exact nofun) with
        ⟨j, hj, hjp⟩ | hempty
      · exact hnone j hj hjp
      · obtain ⟨hfile, hsub⟩ := hempty p hpd
        rcases hk with rfl | rfl
        · rw [hfile] at hold
          cases hold
        · rw [hsub] at hold
          cases hold
    · by_cases hpp : p.dirname = d.dirname
      · rwa [hpp]
      · exact h.kept _ hpd hpp hrooted
  · rw [hc.dirname_of_entry hj (hjk ▸ hk)]
    refine hdir.resolve_right ?_
    rintro ⟨-, hnone⟩
    exact hjp.elim (hnone j hj) (hidle j)

end Held

/-! ### Orphans -/

/-- After a removal that came too late nobody inserts the directory's key again. -/
structure Orphaned (tasks : Fin n → Task) (r : Fin n) (d : FilePath) (w : Nodes n) : Prop where
  gone : w.shared (d.bytes ++ [slash]) = none
  removed : w.procs r = .done true
  settled : ∀ j, j ≠ r → ¬Pending (tasks j) (w.procs j)
  entry : ∃ j, j ≠ r ∧ (w.procs j).Past

theorem Orphaned.step (h : Orphaned tasks r d w) (hc : Contest tasks r d)
    (hstep : serveTask tasks w i = some w') : Orphaned tasks r d w' := by
  obtain ⟨hturn, hother⟩ := contest_cases hc hstep
  have hi : i ≠ r := by
    rintro rfl
    obtain ⟨-, hturn⟩ := hturn.resolve_right fun hr => hr.1 rfl
    rw [h.removed] at hturn
    cases hturn
  obtain ⟨-, hturn⟩ := hturn.resolve_left fun hr => hi hr.1
  have hidle := h.settled i hi
  have hafter : ¬Pending (tasks i) (tasks i).after ∧ (tasks i).after.Past := by
    cases tasks i <;> exact ⟨id, trivial⟩
  have hnext : w'.shared (d.bytes ++ [slash]) = none ∧ ¬Pending (tasks i) (w'.procs i) ∧
      ((w.procs i).Past → (w'.procs i).Past) := by
    generalize w.procs i = t at hturn hidle
    generalize w'.procs i = t' at hturn
    cases hturn with
    | refused _ hdir hshared => exact ⟨by rw [hshared, hdir], id, id⟩
    | found _ hdir =>
        rw [h.gone] at hdir
        cases hdir
    | entry p htask => exact absurd ⟨p, htask⟩ hidle
    | compute => exact absurd trivial hidle
    | remove => exact absurd trivial hidle
    | insert => exact absurd trivial hidle
    | check hshared => exact ⟨by rw [hshared, h.gone], hafter.1, fun _ => hafter.2⟩
    | last _ hshared =>
        exact ⟨by rw [hshared, zhtInsert_of_ne (hc.entry_ne hi).1.symm, h.gone], id, fun _ => trivial⟩
  refine ⟨hnext.1, by rw [hother r hi.symm, h.removed], fun j hj => ?_, ?_⟩
  · by_cases hji : j = i
    · rw [hji]
      exact hnext.2.1
    · rw [hother j hji]
      exact h.settled j hj
  · obtain ⟨j, hj, hjp⟩ := h.entry
    by_cases hji : j = i
    · exact ⟨i, hi, hnext.2.2 (hji ▸ hjp)⟩
    · exact ⟨j, hj, by rwa [hother j hji]⟩

theorem Orphaned.not_rooted (h : Orphaned tasks r d w) (hmade : Made tasks r w)
    (hc : Contest tasks r d) (hdone : ∀ i, ∃ ok, w.procs i = .done ok) : ¬Rooted w.shared := by
  intro hrooted
  obtain ⟨j, hj, hjp⟩ := h.entry
  obtain ⟨ok, hok⟩ := hdone j
  rw [hok] at hjp
  have hthrough : w.procs j = .done true := by
    cases ok with
    | true => exact hok
    | false => exact hjp.elim
  have hentry := hmade j hj (.inl hthrough)
  obtain ⟨p, hp, htask⟩ := hc.2 j hj
  have hparent : (w.shared p.dirname).isSome := by
    apply hrooted p
    rcases htask with ⟨addr, htask⟩ | htask
    · rw [htask] at hentry
      exact .inl hentry
    · rw [htask] at hentry
      exact .inr hentry
  rw [hp, h.gone] at hparent
  cases hparent

/-- **Entries keep their parent exactly if the removal is not the last word.** Whatever the order of
the requests: once all tasks are done each key's parent directory key exists, if and only if at the
removal of the directory's key no creator had inserted that key or one was still going to. -/
theorem rmdir_rooted_iff (hc : Contest tasks r d) (hz : Consistent z₀)
    (hd : (z₀ (d.bytes ++ [slash])).isSome) {schedule : List (Fin n)}
    (hrun : run (serveTask tasks) (nodesInit n z₀) schedule = some w)
    (hdone : ∀ i, ∃ ok, w.procs i = .done ok) :
    Rooted w.shared ↔ EachStep (serveTask tasks) (KeepsParent tasks r) (nodesInit n z₀) schedule := by
  constructor
  · intro hrooted
    by_contra hlate
    obtain ⟨before, i, after, m, m', hbefore, hstep, hafter, hbad⟩ := exists_unguarded hrun hlate
    simp only [KeepsParent, Classical.not_imp, not_exists, not_and] at hbad
    obtain ⟨rfl, hlast, ⟨j, hj, hjp⟩, hidle⟩ := hbad
    obtain ⟨hturn, hother⟩ := contest_cases hc hstep
    obtain ⟨-, hturn⟩ := hturn.resolve_right fun hr => hr.1 rfl
    have horphaned : Orphaned tasks i d m' := by
      rw [hlast] at hturn
      generalize hnext : m'.procs i = t' at hturn
      cases hturn with
      | last hshared =>
          refine ⟨by rw [hshared, zhtRemove_self], hnext, fun l hl => ?_, j, hj, ?_⟩
          · rw [hother l hl]
            exact hidle l hl
          · rwa [hother j hj]
    have hmade₀ : Made tasks i (nodesInit n z₀) := by
      rintro l - (hl | ⟨hl, -⟩)
      · cases hl
      · exact absurd rfl hl
    have hmade : Made tasks i w := run_of_invariant (fun m i m' hm hs _ => hm.step hc hs) hmade₀
      (eachStep_true _ _) hrun
    have hend : Orphaned tasks i d w := run_of_invariant (fun m i m' hm hs _ => hm.step hc hs)
      horphaned (eachStep_true _ _) hafter
    exact hend.not_rooted hmade hc hdone hrooted
  · intro hkeeps
    have hheld : Held tasks r d z₀ w := by
      refine run_of_invariant (fun m i m' hm hs hg => ?_) (Held.init hz hd) hkeeps hrun
      by_cases hi : i = r
      · subst hi
        exact hm.remove hc hz hd hs hg
      · exact hm.make hc hd hs hi
    exact hheld.rooted hc hz hdone

end

instance : DecidablePred Phase.Past
  | .first => .isFalse not_false
  | .call .start => .isFalse not_false
  | .call (.remove _) => .isFalse not_false
  | .call (.insert _) => .isFalse not_false
  | .call .check => .isTrue trivial
  | .call (.done _) => .isFalse not_false
  | .last => .isTrue trivial
  | .done true => .isTrue trivial
  | .done false => .isFalse not_false

instance (task : Task) : DecidablePred (Pending task)
  | .first =>
      match task with
      | .mkdir path => .isTrue ⟨path, rfl⟩
      | .create .. => .isFalse (not_exists.mpr fun _ => Task.noConfusion)
      | .rmdir .. => .isFalse (not_exists.mpr fun _ => Task.noConfusion)
  | .call .start => .isTrue trivial
  | .call (.remove _) => .isTrue trivial
  | .call (.insert _) => .isTrue trivial
  | .call .check => .isFalse not_false
  | .call (.done _) => .isFalse not_false
  | .last => .isFalse not_false
  | .done _ => .isFalse not_false

instance (tasks : Fin n → Task) (r : Fin n) (w : Nodes n) (i : Fin n) :
    Decidable (KeepsParent tasks r w i) := inferInstanceAs (Decidable (_ → _ → _ → _))

/-- A directory, its removal and a file made in it. -/
def contestDir : FilePath := filePath "/d" path_d

def contestTasks : Fin 2 → Task
  | 0 => .rmdir contestDir []
  | 1 => .create (filePath "/d/x" (by decide)) (cstr "10.0.0.1")

def contestZht : Zht := mkdirEntry zhtInit contestDir.bytes

theorem contest : Contest contestTasks 0 contestDir := by
  refine ⟨⟨[], rfl⟩, fun j hj => ?_⟩
  match j, hj with
  | 1, _ => exact ⟨filePath "/d/x" (by decide), by decide, .inl ⟨_, rfl⟩⟩

theorem contestZht_consistent : Consistent contestZht := by
  obtain ⟨z, hstep, htree⟩ := Tree.init.step
    (show NsLegal zhtInit (.mkdir contestDir) from by decide)
  obtain rfl := Option.some.inj hstep
  exact htree.consistent

theorem rmdir_rooted_append_last : ∃ w, run (serveTask contestTasks) (nodesInit 2 contestZht)
    [1, 0, 0, 0, 0, 0, 0, 1, 1, 1, 1, 1] = some w ∧ Rooted w.shared := by
  obtain ⟨w, hrun, htest⟩ := exists_run_of_any (show ((run (serveTask contestTasks)
    (nodesInit 2 contestZht) [1, 0, 0, 0, 0, 0, 0, 1, 1, 1, 1, 1]).any fun w =>
      decide (w.procs 0 = .done true ∧ w.procs 1 = .done true)) = true by decide +kernel)
  obtain ⟨h0, h1⟩ := of_decide_eq_true htest
  refine ⟨w, hrun, (rmdir_rooted_iff contest contestZht_consistent (by decide) hrun fun i => ?_).mpr
    (Guarded.eachStep (by decide +kernel))⟩
  match i with
  | 0 => exact ⟨true, h0⟩
  | 1 => exact ⟨true, h1⟩

/-- The removal comes after the append and before the file's own key. -/
theorem not_rmdir_rooted : ¬∀ (n : Nat) (tasks : Fin n → Task) (r : Fin n) (d : FilePath) (z₀ : Zht)
    (schedule : List (Fin n)) (w : Nodes n), Contest tasks r d → Consistent z₀ →
      (z₀ (d.bytes ++ [slash])).isSome → run (serveTask tasks) (nodesInit n z₀) schedule = some w →
        (∀ i, ∃ ok, w.procs i = .done ok) → Rooted w.shared := by
  intro hall
  obtain ⟨w, hrun, htest⟩ := exists_run_of_any (show ((run (serveTask contestTasks)
    (nodesInit 2 contestZht) [0, 1, 1, 1, 1, 1, 0, 0, 0, 0, 0, 1]).any fun w =>
      decide (w.procs 0 = .done true ∧ w.procs 1 = .done true ∧ (w.shared (cstr "/d/x")).isSome ∧
        (w.shared (cstr "/d/")).isNone)) = true by decide +kernel)
  obtain ⟨h0, h1, hfile, hdir⟩ := of_decide_eq_true htest
  have hrooted := hall 2 contestTasks 0 contestDir contestZht _ w contest contestZht_consistent
    (by decide) hrun fun i => by
      match i with
      | 0 => exact ⟨true, h0⟩
      | 1 => exact ⟨true, h1⟩
  have hparent := hrooted (filePath "/d/x" (by decide)) (.inl hfile)
  have hkey : (filePath "/d/x" (by decide)).dirname = cstr "/d/" := by decide
  rw [hkey, Option.isNone_iff_eq_none.mp hdir] at hparent
  cases hparent

end FusionFS
