import FusionFS.Lib.MapProgram
import FusionFS.Orphans

/-!
# The namespace operations as requests

Each operation on the namespace is a program of requests for single keys. Over the map it does what
the operation does to the store, alone or request by request.
-/

namespace FusionFS

open MapProgram

/-- What the requests must satisfy that put a new value in the place of a directory's. -/
def Rewrites (G : Zht → Request Bytes Bytes → Prop) (z : Zht) (dir newval : Bytes) : Prop :=
  G z (.lookup dir) ∧ G z (.remove dir) ∧ G (zhtRemove z dir) (.insert dir newval) ∧
    G (zhtInsert z dir newval) (.lookup dir)

namespace Call

/-- `zht_insert` of the new value, and the lookup for the log. -/
def write (c : Call) (newval : Bytes) : Prog Bytes Bytes Bool :=
  .insert c.key newval (.lookup c.key fun v => .ret v.isSome)

/-- `zht_append` and `zht_delete` from the lookup of the old value on. -/
def edited (c : Call) : Prog Bytes Bytes Bool :=
  .lookup c.key fun v =>
    match c.edit (v.getD []) with
    | some newval => .remove c.key (c.write newval)
    | none => .fault

/-- What a call has still to do. -/
def rest (c : Call) : Stage → Prog Bytes Bytes Bool
  | .start =>
      match c with
      | append _ _ => c.edited
      | delete _ _ => c.edited
      | update key val => .remove key (c.write val)
      | lookup key => .lookup key fun v => .ret v.isSome
  | .remove newval => .remove c.key (c.write newval)
  | .insert newval => c.write newval
  | .check => .lookup c.key fun v => .ret v.isSome
  | .done found => .ret found

theorem step_edited {c : Call} {z z' : Zht} {t' : Stage}
    (h : ((c.edit (zhtValue z c.key)).map fun newval => (z, Stage.remove newval)) = some (z', t')) :
    map.step z c.edited = some (z', c.rest t') := by
  obtain ⟨newval, hedit, heq⟩ := Option.map_eq_some_iff.mp h
  obtain ⟨rfl, rfl⟩ := Prod.mk.inj heq
  rw [zhtValue] at hedit
  simp only [edited, rest, Service.step, map, Option.map_some, hedit]

/-- A request of a call is a step of its program. -/
theorem step_rest {c : Call} {z z' : Zht} {t t' : Stage} (h : c.request z t = some (z', t')) :
    map.step z (c.rest t) = some (z', c.rest t') := by
  cases t with
  | start =>
      cases c with
      | append key val => exact step_edited h
      | delete key val => exact step_edited h
      | update key val =>
          cases h
          rfl
      | lookup key =>
          cases h
          rfl
  | remove newval =>
      cases h
      rfl
  | insert newval =>
      cases h
      rfl
  | check =>
      cases h
      rfl
  | done found => cases h

theorem eval_write (c : Call) (newval : Bytes) (z : Zht) :
    map.eval (c.write newval) z = some (zhtInsert z c.key newval, true) := by
  simp only [write, Service.eval, map, Option.bind_some]
  rw [Function.update_self]
  rfl

/-- A call alone is one step on the store. -/
theorem eval_rest {c : Call} (hc : c.isLookup = false) (z : Zht) :
    map.eval (c.rest .start) z = (c.apply z).map fun z' => (z', true) := by
  rw [apply_eq hc, Option.map_map]
  have hremove : ∀ newval, map.eval (.remove c.key (c.write newval)) z =
      some (zhtInsert z c.key newval, true) := by
    intro newval
    calc map.eval (.remove c.key (c.write newval)) z
        = map.eval (c.write newval) (zhtRemove z c.key) := rfl
      _ = some (zhtUpdate z c.key newval, true) := eval_write c newval _
      _ = some (zhtInsert z c.key newval, true) := by rw [zhtUpdate_eq_insert]
  cases c with
  | append key val => exact hremove _
  | delete key val =>
      rw [zhtValue, rest, edited, Service.eval, map, Option.bind_some]
      cases (delete key val).edit ((z (delete key val).key).getD []) with
      | none => rfl
      | some newval => exact hremove newval
  | update key val => exact hremove val
  | lookup key => cases hc

/-- The requests of an append or a delete, with something behind it. -/
theorem within_rest {c : Call} (hc : c.rewrites = true) {G : Zht → Request Bytes Bytes → Prop} {z : Zht}
    {val newval : Bytes} (hz : z c.key = some val) (hedit : c.edit val = some newval)
    (f : Bool → Prog Bytes Bytes Bool) :
    ((c.rest .start).bind f).Within G z ↔
      Rewrites G z c.key newval ∧ (f true).Within G (zhtInsert z c.key newval) := by
  have hedited : (c.edited.bind f).Within G z ↔
      G z (.lookup c.key) ∧ G z (.remove c.key) ∧ G (zhtRemove z c.key) (.insert c.key newval) ∧
        G (zhtUpdate z c.key newval) (.lookup c.key) ∧
          (f (zhtUpdate z c.key newval c.key).isSome).Within G (zhtUpdate z c.key newval) := by
    simp only [edited, write, Prog.bind, Prog.Within, hz, Option.getD_some, hedit]
    rfl
  rw [zhtUpdate_eq_insert, zhtInsert_self] at hedited
  have hrest : (c.edited.bind f).Within G z ↔
      Rewrites G z c.key newval ∧ (f true).Within G (zhtInsert z c.key newval) := by
    simpa only [Rewrites, and_assoc, Option.isSome_some] using hedited
  cases c with
  | append key val => exact hrest
  | delete key val => exact hrest
  | update key val => cases hc
  | lookup key => cases hc

end Call

namespace Task

/-- The request behind the inner call. -/
def final : Task → Prog Bytes Bytes Bool
  | rmdir path _ => .remove (path.bytes ++ [slash]) (.ret true)
  | create path addr => .insert path.bytes addr (.ret true)
  | mkdir _ => .ret true

/-- What a task has still to do. -/
def rest (task : Task) : Phase → Prog Bytes Bytes Bool
  | .first =>
      match task with
      | rmdir _ junk => .lookup task.entry fun v =>
          match v with
          | none => .ret false
          | some val =>
              if (realIp junk val).2 = [space] then (task.inner.rest .start).bind fun _ => task.final
              else .ret false
      | create path _ => .lookup path.dirname fun v =>
          match v with
          | none => .ret false
          | some _ => (task.inner.rest .start).bind fun _ => task.final
      | mkdir _ => .insert task.entry [space] ((task.inner.rest .start).bind fun _ => task.final)
  | .call t => (task.inner.rest t).bind fun _ => task.final
  | .last => task.final
  | .done ok => .ret ok

theorem rest_after (task : Task) : task.rest task.after = task.final := by
  cases task <;> rfl

/-- A request of a task is a step of its program. -/
theorem step_rest {task : Task} {z z' : Zht} {t t' : Phase} (h : task.request z t = some (z', t')) :
    map.step z (task.rest t) = some (z', task.rest t') := by
  cases t with
  | first =>
      cases task with
      | rmdir path junk =>
          have hlookup : map.step z ((rmdir path junk).rest .first) =
              some (z, match z (path.bytes ++ [slash]) with
                | none => .ret false
                | some val =>
                    if (realIp junk val).2 = [space] then (rmdir path junk).rest (.call .start)
                    else .ret false) := rfl
          rw [hlookup]
          simp only [request, entry] at h
          cases hz : z (path.bytes ++ [slash]) with
          | none =>
              rw [hz] at h
              cases h
              rfl
          | some val =>
              rw [hz] at h
              simp only at h ⊢
              split at h <;> rename_i hempty
              · cases h
                rw [if_pos hempty]
              · cases h
                rw [if_neg hempty]
                rfl
      | create path addr =>
          have hlookup : map.step z ((create path addr).rest .first) =
              some (z, match z path.dirname with
                | none => .ret false
                | some _ => (create path addr).rest (.call .start)) := rfl
          rw [hlookup]
          simp only [request] at h
          cases hz : z path.dirname with
          | none =>
              rw [hz] at h
              cases h
              rfl
          | some val =>
              rw [hz] at h
              cases h
              rfl
      | mkdir path =>
          cases h
          rfl
  | call t =>
      obtain ⟨⟨z₁, t₁⟩, hcall, heq⟩ := Option.map_eq_some_iff.mp h
      obtain ⟨rfl, rfl⟩ := Prod.mk.inj heq
      have hstep := Service.step_bind (Call.step_rest hcall) fun _ => task.final
      rw [rest, hstep]
      cases t₁ with
      | done found => rw [rest_after]; rfl
      | _ => rfl
  | last =>
      cases task with
      | rmdir path junk =>
          cases h
          rfl
      | create path addr =>
          cases h
          rfl
      | mkdir path => cases h
  | done ok => cases h

end Task

namespace NsOp

/-- An operation, as the requests of the node that issues it. -/
def prog : NsOp → Prog Bytes Bytes Bool
  | create path addr => (Task.create path addr).rest .first
  | mkdir path => (Task.mkdir path).rest .first
  | rmdir path junk => (Task.rmdir path junk).rest .first
  | unlink path => .lookup path.bytes fun v =>
      match v with
      | none => .ret false
      | some _ => ((Call.delete path.dirname path.fname).rest .start).bind fun _ =>
          .lookup path.bytes fun _ => .remove path.bytes (.ret true)

/-- An operation alone does to the map what it does to the store. -/
theorem eval_prog (op : NsOp) (z : Zht) : (map.eval op.prog z).map Prod.fst = nsStep z op := by
  cases op with
  | create path addr =>
      rw [prog, Task.rest, Service.eval, map, Option.bind_some, nsStep, createEntry]
      cases hz : z path.dirname with
      | none =>
          rw [FilePath.dirname] at hz
          simp only [hz]
          rfl
      | some val =>
          have hcall := Call.eval_rest (c := .append path.dirname path.fname) rfl z
          rw [FilePath.dirname] at hz
          simp only [hz]
          change (map.eval (Prog.bind _ ((Call.append path.dirname path.fname).rest .start)) z).map _ = _
          rw [Service.eval_bind, hcall]
          rfl
  | mkdir path =>
      have hcall := Call.eval_rest (c := .append path.dirname (path.fname ++ [slash])) rfl
        (zhtInsert z (path.bytes ++ [slash]) [space])
      change (map.eval (Prog.bind _ ((Call.append path.dirname (path.fname ++ [slash])).rest .start))
        (zhtInsert z (path.bytes ++ [slash]) [space])).map _ = _
      rw [Service.eval_bind, hcall]
      rfl
  | rmdir path junk =>
      rw [prog, Task.rest, Service.eval, map, Option.bind_some, nsStep, rmdirEntry, Task.entry]
      cases hz : z (path.bytes ++ [slash]) with
      | none => rfl
      | some val =>
          simp only
          split
          · have hcall := Call.eval_rest (c := .delete path.dirname (path.fname ++ [slash])) rfl z
            change (map.eval (Prog.bind _
              ((Call.delete path.dirname (path.fname ++ [slash])).rest .start)) z).map _ = _
            rw [Service.eval_bind, hcall, Call.apply, FilePath.dirname, FilePath.fname]
            cases zhtDelete z (dirOf path.bytes) (baseOf path.bytes ++ [slash]) with
            | none => rfl
            | some z' => rfl
          · rfl
  | unlink path =>
      rw [prog, Service.eval, map, Option.bind_some, nsStep, unlinkEntry]
      cases hz : z path.bytes with
      | none => rfl
      | some val =>
          have hcall := Call.eval_rest (c := .delete path.dirname path.fname) rfl z
          change (map.eval (Prog.bind _ ((Call.delete path.dirname path.fname).rest .start)) z).map _ = _
          rw [Service.eval_bind, hcall, Call.apply, FilePath.dirname, FilePath.fname]
          cases zhtDelete z (dirOf path.bytes) (baseOf path.bytes) with
          | none => rfl
          | some z' => rfl

section Within

variable {G : Zht → Request Bytes Bytes → Prop} {z : Zht} {path : FilePath} {addr junk val newval : Bytes}

theorem within_create (hparent : z path.dirname = some val) :
    (create path addr).prog.Within G z ↔
      Rewrites G z path.dirname (val ++ path.fname ++ [space]) ∧
        G (zhtInsert z path.dirname (val ++ path.fname ++ [space])) (.insert path.bytes addr) := by
  have hcall := Call.within_rest (c := .append path.dirname path.fname) (G := G) rfl hparent rfl
    fun _ => (Task.create path addr).final
  have hprog : (create path addr).prog.Within G z ↔ G z (.lookup path.dirname) ∧
      (((Call.append path.dirname path.fname).rest .start).bind fun _ =>
        (Task.create path addr).final).Within G z := by
    simp only [prog, Task.rest, Prog.Within, hparent, Task.inner]
  rw [hprog, hcall]
  simp only [Task.final, Prog.Within, Rewrites, Call.key]
  tauto

theorem within_mkdir (hparent : z path.dirname = some val) :
    (mkdir path).prog.Within G z ↔ G z (.insert (path.bytes ++ [slash]) [space]) ∧
      Rewrites G (zhtInsert z (path.bytes ++ [slash]) [space]) path.dirname
        (val ++ (path.fname ++ [slash]) ++ [space]) := by
  have hparent' : zhtInsert z (path.bytes ++ [slash]) [space] path.dirname = some val := by
    rw [zhtInsert_of_ne path.dirname_ne_append_slash, hparent]
  have hcall := Call.within_rest (c := .append path.dirname (path.fname ++ [slash])) (G := G) rfl
    hparent' rfl fun _ => (Task.mkdir path).final
  change G z (.insert (path.bytes ++ [slash]) [space]) ∧
    (((Call.append path.dirname (path.fname ++ [slash])).rest .start).bind fun _ =>
      (Task.mkdir path).final).Within G (zhtInsert z (path.bytes ++ [slash]) [space]) ↔ _
  rw [hcall]
  simp only [Task.final, Prog.Within, and_true, Call.key]

theorem within_unlink_of_none (hz : z path.bytes = none) :
    (unlink path).prog.Within G z ↔ G z (.lookup path.bytes) := by
  simp only [prog, Prog.Within, hz, and_true]

theorem within_unlink (hz : z path.bytes = some addr) (hparent : z path.dirname = some val)
    (hedit : (Call.delete path.dirname path.fname).edit val = some newval) :
    (unlink path).prog.Within G z ↔ G z (.lookup path.bytes) ∧ Rewrites G z path.dirname newval ∧
      G (zhtInsert z path.dirname newval) (.lookup path.bytes) ∧
        G (zhtInsert z path.dirname newval) (.remove path.bytes) := by
  have hcall := Call.within_rest (c := .delete path.dirname path.fname) (G := G) rfl hparent hedit
    fun _ => .lookup path.bytes fun _ => .remove path.bytes (.ret true)
  simp only [prog, Prog.Within, hz, hcall, Call.key, and_true]

theorem within_rmdir_of_kept (hkept : ∀ v ∈ z (path.bytes ++ [slash]), (realIp junk v).2 ≠ [space]) :
    (rmdir path junk).prog.Within G z ↔ G z (.lookup (path.bytes ++ [slash])) := by
  cases hz : z (path.bytes ++ [slash]) with
  | none => simp only [prog, Task.rest, Task.entry, Prog.Within, hz, and_true]
  | some v =>
      simp only [prog, Task.rest, Task.entry, Prog.Within, hz, if_neg (hkept v hz), and_true]

theorem within_rmdir {v : Bytes} (hz : z (path.bytes ++ [slash]) = some v)
    (hempty : (realIp junk v).2 = [space]) (hparent : z path.dirname = some val)
    (hedit : (Call.delete path.dirname (path.fname ++ [slash])).edit val = some newval) :
    (rmdir path junk).prog.Within G z ↔ G z (.lookup (path.bytes ++ [slash])) ∧
      Rewrites G z path.dirname newval ∧
        G (zhtInsert z path.dirname newval) (.remove (path.bytes ++ [slash])) := by
  have hcall := Call.within_rest (c := .delete path.dirname (path.fname ++ [slash])) (G := G) rfl hparent
    hedit fun _ => (Task.rmdir path junk).final
  have hprog : (rmdir path junk).prog.Within G z ↔ G z (.lookup (path.bytes ++ [slash])) ∧
      (((Call.delete path.dirname (path.fname ++ [slash])).rest .start).bind fun _ =>
        (Task.rmdir path junk).final).Within G z := by
    simp only [prog, Task.rest, Task.entry, Prog.Within, hz, if_pos hempty, Task.inner]
  rw [hprog, hcall]
  simp only [Task.final, Prog.Within, and_true, Call.key]

end Within

end NsOp

/-- An operation on a metadata service, with no other operation in between. -/
def serviceStep {σ : Type} (service : Service σ Bytes Bytes) (s : σ) (op : NsOp) : Option σ :=
  (service.eval op.prog s).map Prod.fst

end FusionFS
