import FusionFS.Lib.Interleave
import FusionFS.Zht
import Mathlib.Data.List.FinRange

/-!
# Updates that interleave

`zht_append`, `zht_delete` and `zht_update` are several requests each: a lookup, an edit of the string
at the client, a remove, an insert, and a last lookup for the log. A server takes one request at a
time, from whichever client comes next.
-/

namespace FusionFS

open Transition Interleave

inductive Call where
  | append (key val : Bytes)
  | delete (key val : Bytes)
  | update (key val : Bytes)
  | lookup (key : Bytes)
  deriving DecidableEq

/-- What a call does next. An edit carries the value it has computed. -/
inductive Stage where
  | start
  | remove (newval : Bytes)
  | insert (newval : Bytes)
  | check
  | done (found : Bool)
  deriving DecidableEq

namespace Call

def key : Call → Bytes
  | append key _ => key
  | delete key _ => key
  | update key _ => key
  | lookup key => key

/-- The edit of the old value at the client. `strstr` may return `NULL`. -/
def edit (oldval : Bytes) : Call → Option Bytes
  | append _ val => some (oldval ++ val ++ [space])
  | delete _ val =>
      let search := [space] ++ val ++ [space]
      (strstr oldval search).map fun pch =>
        oldval.take pch ++ [space] ++ oldval.drop (pch + search.length)
  | update _ val => some val
  | lookup _ => none

def isLookup : Call → Bool
  | lookup _ => true
  | _ => false

def isDelete : Call → Bool
  | delete _ _ => true
  | _ => false

/-- What the call inserts depends on what it has read. -/
def rewrites : Call → Bool
  | append _ _ => true
  | delete _ _ => true
  | _ => false

/-- The next request of a call, and the store behind it. -/
def request (c : Call) (z : Zht) : Stage → Option (Zht × Stage)
  | .start =>
      match c with
      | append key _ => (c.edit (zhtValue z key)).map fun newval => (z, .remove newval)
      | delete key _ => (c.edit (zhtValue z key)).map fun newval => (z, .remove newval)
      | update key val => some (zhtRemove z key, .insert val)
      | lookup key => some (z, .done (z key).isSome)
  | .remove newval => some (zhtRemove z c.key, .insert newval)
  | .insert newval => some (zhtInsert z c.key newval, .check)
  | .check => some (z, .done (z c.key).isSome)
  | .done _ => none

/-- The call as one step. -/
def apply (z : Zht) : Call → Option Zht
  | append key val => some (zhtAppend z key val)
  | delete key val => zhtDelete z key val
  | update key val => some (zhtUpdate z key val)
  | lookup _ => some z

theorem apply_eq {c : Call} (hc : c.isLookup = false) (z : Zht) :
    c.apply z = (c.edit (zhtValue z c.key)).map (zhtInsert z c.key) := by
  cases c with
  | append key val => rw [apply, zhtAppend, zhtUpdate_eq_insert]; rfl
  | delete key val =>
      simp only [apply, zhtDelete, zhtUpdate_eq_insert]
      rw [edit, Option.map_map, Option.map_eq_bind]
      rfl
  | update key val => rw [apply, zhtUpdate_eq_insert]; rfl
  | lookup key => cases hc

theorem edit_of_not_rewrites {c : Call} (hc : c.rewrites = false) (oldval oldval' : Bytes) :
    c.edit oldval = c.edit oldval' := by
  cases c with
  | append key val => cases hc
  | delete key val => cases hc
  | update key val => rfl
  | lookup key => rfl

theorem edit_isSome {c : Call} (hrewrites : c.rewrites = true) (hdelete : c.isDelete = false)
    (oldval : Bytes) : ∃ v, c.edit oldval = some v := by
  cases c with
  | append key val => exact ⟨_, rfl⟩
  | delete key val => cases hdelete
  | update key val => cases hrewrites
  | lookup key => cases hrewrites

end Call

namespace Stage

/-- The value on its way to the store. -/
def newval : Stage → Option Bytes
  | remove v => some v
  | insert v => some v
  | _ => none

/-- Between the first request of an update and its insert. -/
def Active (t : Stage) : Prop :=
  t.newval.isSome

/-- Between the remove of an update and its insert. -/
def Inserting : Stage → Prop
  | insert _ => True
  | _ => False

/-- The call has taken effect. -/
def Passed : Stage → Prop
  | check => True
  | done _ => True
  | _ => False

instance : DecidablePred Active := fun t => inferInstanceAs (Decidable (t.newval.isSome = true))

instance : DecidablePred Inserting
  | start => .isFalse not_false
  | remove _ => .isFalse not_false
  | insert _ => .isTrue trivial
  | check => .isFalse not_false
  | done _ => .isFalse not_false

instance : DecidablePred Passed
  | start => .isFalse not_false
  | remove _ => .isFalse not_false
  | insert _ => .isFalse not_false
  | check => .isTrue trivial
  | done _ => .isTrue trivial

end Stage

abbrev Clients (n : Nat) := World (Fin n) Zht Stage

variable {n : Nat}

/-- The next request of client `i` reaches its server. -/
def serveNext (calls : Fin n → Call) : Clients n → Fin n → Option (Clients n) :=
  turn fun i => (calls i).request

def clientsInit (n : Nat) (z : Zht) : Clients n := ⟨z, fun _ => .start⟩

/-- An insert does not come between the lookup and the insert of another append or delete of its
key. -/
def InsertClear (calls : Fin n → Call) (w : Clients n) (i : Fin n) : Prop :=
  (w.procs i).Inserting → ∀ j, j ≠ i → (calls j).rewrites = true → (w.procs j).Active →
    (calls j).key ≠ (calls i).key

/-- A delete does not look its key up between the remove and the insert of another call. -/
def LookupClear (calls : Fin n → Call) (w : Clients n) (i : Fin n) : Prop :=
  w.procs i = .start → (calls i).isDelete = true → ∀ j, (w.procs j).Inserting →
    (calls j).key ≠ (calls i).key

def Undisturbed (calls : Fin n → Call) (w : Clients n) (i : Fin n) : Prop :=
  InsertClear calls w i ∧ LookupClear calls w i

instance (calls : Fin n → Call) (w : Clients n) (i : Fin n) : Decidable (InsertClear calls w i) :=
  inferInstanceAs (Decidable (_ → _))

instance (calls : Fin n → Call) (w : Clients n) (i : Fin n) : Decidable (LookupClear calls w i) :=
  inferInstanceAs (Decidable (_ → _))

instance (calls : Fin n → Call) (w : Clients n) (i : Fin n) : Decidable (Undisturbed calls w i) :=
  inferInstanceAs (Decidable (_ ∧ _))

/-- What one request does. -/
inductive Served (c : Call) (z z' : Zht) : Stage → Stage → Prop where
  | compute (v : Bytes) (hrewrites : c.rewrites = true) (hedit : c.edit (zhtValue z c.key) = some v)
      (hshared : z' = z) : Served c z z' .start (.remove v)
  | overwrite (v : Bytes) (hupdates : c.isLookup = false) (hedit : ∀ oldval, c.edit oldval = some v)
      (hshared : z' = zhtRemove z c.key) : Served c z z' .start (.insert v)
  | remove (v : Bytes) (hshared : z' = zhtRemove z c.key) : Served c z z' (.remove v) (.insert v)
  | insert (v : Bytes) (hshared : z' = zhtInsert z c.key v) : Served c z z' (.insert v) .check
  | lookup (hlookup : c.isLookup = true) (hshared : z' = z) :
      Served c z z' .start (.done (z c.key).isSome)
  | check (hshared : z' = z) : Served c z z' .check (.done (z c.key).isSome)

theorem Call.request_cases {c : Call} {z z' : Zht} {t t' : Stage} (h : c.request z t = some (z', t')) :
    Served c z z' t t' := by
  cases t with
  | start =>
      have hcompute : c.rewrites = true →
          (c.edit (zhtValue z c.key)).map (fun v => (z, Stage.remove v)) = some (z', t') →
            Served c z z' .start t' := by
        intro hrewrites hread
        obtain ⟨v, hedit, hpair⟩ := Option.map_eq_some_iff.mp hread
        obtain ⟨rfl, rfl⟩ := Prod.mk.inj hpair
        exact .compute v hrewrites hedit rfl
      cases c with
      | append key val => exact hcompute rfl h
      | delete key val => exact hcompute rfl h
      | update key val =>
          obtain ⟨rfl, rfl⟩ := Prod.mk.inj (Option.some.inj h)
          exact .overwrite val rfl (fun _ => rfl) rfl
      | lookup key =>
          obtain ⟨rfl, rfl⟩ := Prod.mk.inj (Option.some.inj h)
          exact .lookup rfl rfl
  | remove v =>
      obtain ⟨rfl, rfl⟩ := Prod.mk.inj (Option.some.inj h)
      exact .remove v rfl
  | insert v =>
      obtain ⟨rfl, rfl⟩ := Prod.mk.inj (Option.some.inj h)
      exact .insert v rfl
  | check =>
      obtain ⟨rfl, rfl⟩ := Prod.mk.inj (Option.some.inj h)
      exact .check rfl
  | done found => cases h

theorem Served.found {c : Call} {z z' : Zht} {t : Stage} {found : Bool}
    (h : Served c z z' t (.done found)) : found = (z c.key).isSome := by
  cases h <;> rfl

theorem serveNext_cases {calls : Fin n → Call} {w w' : Clients n} {i : Fin n}
    (h : serveNext calls w i = some w') :
    Served (calls i) w.shared w'.shared (w.procs i) (w'.procs i) ∧
      ∀ j, j ≠ i → w'.procs j = w.procs j := by
  obtain ⟨z, t, hrequest, rfl, rfl, hother⟩ := turn_cases h
  exact ⟨Call.request_cases hrequest, hother⟩

/-! ### A serial order -/

/-- An append that reads its key while another call is about to insert it. Its value is overwritten
by that call. -/
structure Overwritten (calls : Fin n → Call) (w : Clients n) (i : Fin n) : Prop where
  rewrites : (calls i).rewrites = true
  append : (calls i).isDelete = false
  other : ∃ j, j ≠ i ∧ (w.procs j).Inserting ∧ (calls j).key = (calls i).key

theorem Overwritten.of_procs {calls : Fin n → Call} {w w' : Clients n} {i : Fin n}
    (h : Overwritten calls w i)
    (hprocs : ∀ j, j ≠ i → (calls j).key = (calls i).key → (w.procs j).Inserting →
      (w'.procs j).Inserting) : Overwritten calls w' i := by
  obtain ⟨j, hji, hj, hkey⟩ := h.other
  exact ⟨h.rewrites, h.append, j, hji, hprocs j hji hkey hj, hkey⟩

/-- `order` lists the calls that have taken effect, and `zs` is the store they make one after the
other. The store itself differs from it only at keys whose value is on its way. -/
structure Linearized (calls : Fin n → Call) (z₀ : Zht) (w : Clients n) (order : List (Fin n))
    (zs : Zht) : Prop where
  nodup : order.Nodup
  mem : ∀ i, i ∈ order ↔ (w.procs i).Passed
  serial : run Call.apply z₀ (order.map calls) = some zs
  quiet : ∀ k, (∀ i, (w.procs i).Inserting → (calls i).key ≠ k) → w.shared k = zs k
  edit : ∀ i v, (w.procs i).newval = some v →
    (calls i).edit (zhtValue zs (calls i).key) = some v ∨ Overwritten calls w i

namespace Linearized

variable {calls : Fin n → Call} {z₀ : Zht} {w w' : Clients n} {order : List (Fin n)} {zs : Zht}
  {i : Fin n}

theorem init : Linearized calls z₀ (clientsInit n z₀) [] z₀ where
  nodup := List.nodup_nil
  mem i := by simp [clientsInit, Stage.Passed]
  serial := rfl
  quiet _ _ := rfl
  edit i v h := nomatch h

/-- Up to its insert a call leaves the serial order as it is. -/
theorem advance (h : Linearized calls z₀ w order zs) {v : Bytes}
    (hproc : (w'.procs i).newval = some v) (hother : ∀ j, j ≠ i → w'.procs j = w.procs j)
    (hshared : ∀ k, ((w'.procs i).Inserting → (calls i).key ≠ k) → w'.shared k = w.shared k)
    (hpassed : ¬(w.procs i).Passed) (hinserting : ¬(w.procs i).Inserting)
    (hedit : (calls i).edit (zhtValue zs (calls i).key) = some v ∨ Overwritten calls w i) :
    Linearized calls z₀ w' order zs := by
  have hkept : ∀ j, (w.procs j).Inserting → w'.procs j = w.procs j := by
    intro j hj
    apply hother
    rintro rfl
    exact hinserting hj
  have hoverwritten : ∀ j, Overwritten calls w j → Overwritten calls w' j := by
    intro j hj
    apply hj.of_procs
    intro l _ _ hl
    rwa [hkept l hl]
  refine ⟨h.nodup, fun j => ?_, h.serial, fun k hk => ?_, fun j u hj => ?_⟩
  · rw [h.mem]
    by_cases hji : j = i
    · subst hji
      refine iff_of_false hpassed ?_
      cases hnext : w'.procs j with
      | check => rw [hnext] at hproc; cases hproc
      | done found => rw [hnext] at hproc; cases hproc
      | _ => exact id
    · rw [hother j hji]
  · rw [hshared k (hk i)]
    apply h.quiet
    intro j hj
    apply hk
    rwa [hkept j hj]
  · by_cases hji : j = i
    · subst hji
      rw [hproc, Option.some.injEq] at hj
      rw [← hj]
      exact hedit.imp_right (hoverwritten j)
    · rw [hother j hji] at hj
      exact (h.edit j u hj).imp_right (hoverwritten j)

/-- What an insert adds to the serial order: the value it inserts, unless another call is about to
overwrite it. -/
theorem inserted (h : Linearized calls z₀ w order zs) {v : Bytes}
    (hproc : w.procs i = .insert v) :
    ∃ v', (calls i).edit (zhtValue zs (calls i).key) = some v' ∧
      (v' ≠ v → ∃ j, j ≠ i ∧ (w.procs j).Inserting ∧ (calls j).key = (calls i).key) := by
  have hnewval : (w.procs i).newval = some v := by
    rw [hproc]
    rfl
  apply (h.edit i v hnewval).elim
  · intro hedit
    exact ⟨v, hedit, fun hne => absurd rfl hne⟩
  · intro hover
    obtain ⟨v', hedit⟩ := Call.edit_isSome hover.rewrites hover.append (zhtValue zs (calls i).key)
    exact ⟨v', hedit, fun _ => hover.other⟩

theorem commit (h : Linearized calls z₀ w order zs) (hfree : Undisturbed calls w i) {v : Bytes}
    (hproc : w.procs i = .insert v) (hproc' : w'.procs i = .check)
    (hother : ∀ j, j ≠ i → w'.procs j = w.procs j)
    (hshared : w'.shared = zhtInsert w.shared (calls i).key v) :
    ∃ zs', Linearized calls z₀ w' (order ++ [i]) zs' := by
  obtain ⟨v', hedit, hother_inserts⟩ := h.inserted hproc
  have hupdates : (calls i).isLookup = false := by
    cases hcall : calls i with
    | lookup key => rw [hcall] at hedit; cases hedit
    | _ => rfl
  have hinserting : (w.procs i).Inserting := by
    rw [hproc]
    trivial
  -- the calls of this key that are under way do not depend on its value
  have hblind : ∀ j, j ≠ i → (w.procs j).Active → (calls j).key = (calls i).key →
      (calls j).rewrites = false := by
    intro j hji hj hkey
    by_contra hrewrites
    exact hfree.1 hinserting j hji (by simpa using hrewrites) hj hkey
  refine ⟨zhtInsert zs (calls i).key v', ?_, fun j => ?_, ?_, fun k hk => ?_, fun j u hj => ?_⟩
  · rw [List.nodup_append]
    refine ⟨h.nodup, List.nodup_singleton i, fun a ha b hb hab => ?_⟩
    rw [List.mem_singleton.mp hb] at hab
    rw [hab, h.mem, hproc] at ha
    exact ha
  · rw [List.mem_append, List.mem_singleton, h.mem]
    by_cases hji : j = i
    · rw [hji, hproc']
      exact iff_of_true (.inr rfl) trivial
    · rw [hother j hji]
      exact or_iff_left hji
  · rw [List.map_append, run_append, h.serial, Option.bind_some, List.map_singleton, run_cons,
      Call.apply_eq hupdates, hedit]
    rfl
  · rw [hshared]
    by_cases hki : k = (calls i).key
    · subst hki
      rw [zhtInsert_self, zhtInsert_self]
      by_contra hne
      obtain ⟨j, hji, hj, hkey⟩ := hother_inserts fun heq => hne (by rw [heq])
      exact hk j (by rwa [hother j hji]) hkey
    · rw [zhtInsert_of_ne hki, zhtInsert_of_ne hki]
      apply h.quiet
      intro j hj
      by_cases hji : j = i
      · rw [hji]
        exact Ne.symm hki
      · apply hk
        rwa [hother j hji]
  · have hji : j ≠ i := by
      rintro rfl
      rw [hproc'] at hj
      cases hj
    rw [hother j hji] at hj
    have hactive : (w.procs j).Active := by
      rw [Stage.Active, hj]
      rfl
    by_cases hkey : (calls j).key = (calls i).key
    · have hj' := (h.edit j u hj).resolve_right fun hover =>
        Bool.false_ne_true ((hblind j hji hactive hkey).symm.trans hover.rewrites)
      refine .inl ?_
      rw [← hj']
      exact Call.edit_of_not_rewrites (hblind j hji hactive hkey) _ _
    · rw [zhtValue, zhtInsert_of_ne hkey, ← zhtValue]
      apply (h.edit j u hj).imp_right
      intro hover
      apply hover.of_procs
      intro l _ hlkey hl
      have hli : l ≠ i := by
        rintro rfl
        exact hkey hlkey.symm
      rwa [hother l hli]

theorem look (h : Linearized calls z₀ w order zs) {found : Bool} (hproc : ¬(w.procs i).Inserting)
    (hproc' : w'.procs i = .done found) (hother : ∀ j, j ≠ i → w'.procs j = w.procs j)
    (hshared : w'.shared = w.shared) (hcall : (w.procs i).Passed ∨ (calls i).isLookup = true) :
    ∃ order', Linearized calls z₀ w' order' zs := by
  have hkept : ∀ j, (w.procs j).Inserting → (w'.procs j).Inserting := by
    intro j hj
    have hji : j ≠ i := by
      rintro rfl
      exact hproc hj
    rwa [hother j hji]
  have hrest : ∀ k, (∀ j, (w'.procs j).Inserting → (calls j).key ≠ k) → w'.shared k = zs k := by
    intro k hk
    rw [hshared]
    exact h.quiet k fun j hj => hk j (hkept j hj)
  have hedit : ∀ j u, (w'.procs j).newval = some u →
      (calls j).edit (zhtValue zs (calls j).key) = some u ∨ Overwritten calls w' j := by
    intro j u hj
    have hji : j ≠ i := by
      rintro rfl
      rw [hproc'] at hj
      cases hj
    rw [hother j hji] at hj
    exact (h.edit j u hj).imp_right fun hover => hover.of_procs fun l _ _ => hkept l
  by_cases hpassed : (w.procs i).Passed
  · refine ⟨order, h.nodup, fun j => ?_, h.serial, hrest, hedit⟩
    rw [h.mem]
    by_cases hji : j = i
    · rw [hji, hproc']
      exact iff_of_true hpassed trivial
    · rw [hother j hji]
  · have hlookup := hcall.resolve_left hpassed
    refine ⟨order ++ [i], ?_, fun j => ?_, ?_, hrest, hedit⟩
    · rw [List.nodup_append]
      refine ⟨h.nodup, List.nodup_singleton i, fun a ha b hb hab => hpassed ?_⟩
      rw [List.mem_singleton.mp hb] at hab
      rwa [hab, h.mem] at ha
    · rw [List.mem_append, List.mem_singleton, h.mem]
      by_cases hji : j = i
      · rw [hji, hproc']
        exact iff_of_true (.inr rfl) trivial
      · rw [hother j hji]
        exact or_iff_left hji
    · rw [List.map_append, run_append, h.serial, Option.bind_some, List.map_singleton, run_cons]
      cases hc : calls i with
      | lookup key => rfl
      | _ => rw [hc] at hlookup; cases hlookup

/-- A first lookup sees the serial value, unless an append makes it while another call is about to
insert the key. -/
theorem lookup_start (h : Linearized calls z₀ w order zs) (hfree : Undisturbed calls w i)
    (hproc : w.procs i = .start) (hrewrites : (calls i).rewrites = true) :
    w.shared (calls i).key = zs (calls i).key ∨ Overwritten calls w i := by
  by_cases hbusy : ∃ j, (w.procs j).Inserting ∧ (calls j).key = (calls i).key
  · obtain ⟨j, hj, hkey⟩ := hbusy
    refine .inr ⟨hrewrites, ?_, j, ?_, hj, hkey⟩
    · by_contra hdelete
      exact hfree.2 hproc (by simpa using hdelete) j hj hkey
    · rintro rfl
      rw [hproc] at hj
      exact hj
  · refine .inl (h.quiet _ fun j hj hkey => ?_)
    exact hbusy ⟨j, hj, hkey⟩

theorem step (h : Linearized calls z₀ w order zs) (hfree : Undisturbed calls w i)
    (hstep : serveNext calls w i = some w') :
    ∃ order' zs', Linearized calls z₀ w' order' zs' := by
  obtain ⟨hserved, hother⟩ := serveNext_cases hstep
  generalize hproc : w.procs i = t at hserved
  generalize hnext : w'.procs i = t' at hserved
  have hpassed : ¬t.Passed → ¬(w.procs i).Passed := by
    rw [hproc]
    exact id
  have hinserting : ¬t.Inserting → ¬(w.procs i).Inserting := by
    rw [hproc]
    exact id
  cases hserved with
  | compute v hrewrites hedit hshared =>
      refine ⟨order, zs, h.advance (by rw [hnext]; rfl) hother (fun k _ => by rw [hshared])
        (hpassed id) (hinserting id) ?_⟩
      apply (h.lookup_start hfree hproc hrewrites).imp_left
      intro hread
      rwa [zhtValue, hread] at hedit
  | overwrite v hupdates hedit hshared =>
      refine ⟨order, zs, h.advance (by rw [hnext]; rfl) hother (fun k hk => ?_)
        (hpassed id) (hinserting id) (.inl (hedit _))⟩
      rw [hshared, zhtRemove_of_ne (hk (by rw [hnext]; trivial)).symm]
  | remove v hshared =>
      refine ⟨order, zs, h.advance (by rw [hnext]; rfl) hother (fun k hk => ?_)
        (hpassed id) (hinserting id) (h.edit i v (by rw [hproc]; rfl))⟩
      rw [hshared, zhtRemove_of_ne (hk (by rw [hnext]; trivial)).symm]
  | insert v hshared =>
      obtain ⟨zs', hcommit⟩ := h.commit hfree hproc hnext hother hshared
      exact ⟨_, zs', hcommit⟩
  | lookup hlookup hshared =>
      obtain ⟨order', hlook⟩ := h.look (hinserting id) hnext hother hshared (.inr hlookup)
      exact ⟨order', zs, hlook⟩
  | check hshared =>
      obtain ⟨order', hlook⟩ := h.look (hinserting id) hnext hother hshared
        (.inl (by rw [hproc]; trivial))
      exact ⟨order', zs, hlook⟩

end Linearized

/-! ### Lookups -/

/-- A key that is in the store stays there, except between the remove and the insert of an update. -/
def Kept (calls : Fin n → Call) (z₀ : Zht) (w : Clients n) : Prop :=
  ∀ k, ((z₀ k).isSome ∨ ∃ i, (w.procs i).Passed ∧ (calls i).isLookup = false ∧ (calls i).key = k) →
    (∀ i v, w.procs i = .insert v → (calls i).key ≠ k) → (w.shared k).isSome

theorem Kept.step {calls : Fin n → Call} {z₀ : Zht} {w w' : Clients n} {i : Fin n}
    (h : Kept calls z₀ w) (hstep : serveNext calls w i = some w') : Kept calls z₀ w' := by
  obtain ⟨hserved, hother⟩ := serveNext_cases hstep
  intro k hkey hwindow
  -- the key was there before, unless this very turn has passed its insert
  have hbefore : ((w'.procs i).Passed → (calls i).isLookup = false → (calls i).key = k →
      (w.procs i).Passed) → (∀ v, w.procs i = .insert v → (calls i).key ≠ k) →
        (w.shared k).isSome := by
    intro hpassed hopen
    refine h k (hkey.imp_right ?_) fun j v hj => ?_
    · rintro ⟨j, hj, hupdates, hjk⟩
      by_cases hji : j = i
      · subst hji
        exact ⟨j, hpassed hj hupdates hjk, hupdates, hjk⟩
      · exact ⟨j, by rwa [← hother j hji], hupdates, hjk⟩
    · by_cases hji : j = i
      · subst hji
        exact hopen v hj
      · exact hwindow j v (by rwa [hother j hji])
  generalize hproc : w.procs i = t at hserved hbefore
  generalize hnext : w'.procs i = t' at hserved hbefore
  cases hserved with
  | compute v hrewrites hedit hshared =>
      rw [hshared]
      exact hbefore (fun hp => hp.elim) nofun
  | overwrite v hupdates hedit hshared =>
      rw [hshared, zhtRemove_of_ne (hwindow i v hnext).symm]
      exact hbefore (fun hp => hp.elim) nofun
  | remove v hshared =>
      rw [hshared, zhtRemove_of_ne (hwindow i v hnext).symm]
      exact hbefore (fun hp => hp.elim) nofun
  | insert v hshared =>
      rw [hshared]
      by_cases hki : k = (calls i).key
      · rw [hki, zhtInsert_self]
        rfl
      · rw [zhtInsert_of_ne hki]
        exact hbefore (fun _ _ heq => absurd heq.symm hki) fun _ _ heq => hki heq.symm
  | lookup hlookup hshared =>
      rw [hshared]
      exact hbefore (fun _ hupdates => absurd hlookup (by rw [hupdates]; exact Bool.false_ne_true))
        nofun
  | check hshared =>
      rw [hshared]
      exact hbefore (fun _ _ _ => trivial) nofun

/-! ### Names in a listing -/

end FusionFS
