import FusionFS.Listing
import FusionFS.MetadataStack

/-!
# From the namespace down to the tables

A node keeps the namespace through requests for single keys. Each is a package, sent to the server of
its key, and the server works on a hash table of linked pairs. As long as messages arrive whole and
fit, the operations answer over the tables what they answer over one map, whoever else sends requests
in between. A table that would have to outgrow an `int` throws, and then nothing is answered.
-/

namespace FusionFS

open Transition Interleave MapProgram

section Tables

variable {net : ServerNet} {tables tables' : HostEntity → NoVoHT} {full : Int → Nat → Bool} {z z' : Zht}

theorem answered_storeServer (net : ServerNet) (servers : HostEntity → Store) (r : Request Bytes Bytes) :
    net.Answered (storeServer net.frame) servers r := rfl

/-- A request that is answered over the tables is answered as over the map. -/
theorem Stores.lookup (h : Stores net z tables) {key : Bytes} {r : (HostEntity → NoVoHT) × Option Bytes}
    (hclean : CleanRequest (.lookup key)) (hfits : Fitting z (.lookup key))
    (hrun : (net.tableService full).lookup tables key = some r) : r.2 = z key := by
  obtain ⟨servers, hholds, hm⟩ := h
  obtain ⟨servers', hlookup, -⟩ := (storeService_keeps net).lookup z servers key hholds ⟨hclean, hfits⟩
    trivial
  obtain ⟨servers'', hlookup', -⟩ := ((NoVoHT.storeServer_answersAlike full net.frame).service net).lookup
    tables servers key r hm (answered_storeServer net servers _) hrun
  exact congrArg Prod.snd (Option.some.inj (hlookup'.symm.trans hlookup))

/-- A program that ends over the tables ends as over the map. -/
theorem Stores.eval {α : Type} {p : Prog Bytes Bytes α} {a b : α} (h : Stores net z tables)
    (hwithin : p.Within (fun z r => CleanRequest r ∧ Fitting z r) z)
    (hmap : map.eval p z = some (z', a)) (hrun : (net.tableService full).eval p tables = some (tables', b)) :
    b = a ∧ Stores net z' tables' := by
  obtain ⟨servers, hholds, hm⟩ := h
  exact ((NoVoHT.storeServer_answersAlike full net.frame).service net).eval_agrees
    (answered_storeServer net) (storeService_keeps net) (fun _ _ => trivial) hholds hm hwithin hmap hrun

theorem Stores.step {p p₁ p₂ : Prog Bytes Bytes Bool} (h : Stores net z tables)
    (hsent : ∀ r ∈ p.request, CleanRequest r ∧ Fitting z r) (hmap : map.step z p = some (z', p₁))
    (hrun : (net.tableService full).step tables p = some (tables', p₂)) :
    p₂ = p₁ ∧ Stores net z' tables' := by
  obtain ⟨servers, hholds, hm⟩ := h
  exact ((NoVoHT.storeServer_answersAlike full net.frame).service net).step_agrees
    (answered_storeServer net) (storeService_keeps net) (fun _ _ => trivial) hholds hm hsent hmap hrun

end Tables

/-! ### One node -/

/-- Operations one after the other, with what each of them returns. -/
def runProg : List NsOp → Prog Bytes Bytes (List Bool)
  | [] => .ret []
  | op :: ops => op.prog.bind fun ok => (runProg ops).bind fun oks => .ret (ok :: oks)

/-- The same after `main` has put the root directory into the servers. -/
def mountedProg (ops : List NsOp) : Prog Bytes Bytes (List Bool) := .insert [slash] [space] (runProg ops)

/-- The requests of a run are those of its operations. -/
theorem within_runProg {G : Zht → Request Bytes Bytes → Prop} {z : Zht} {ops : List NsOp}
    (h : Guarded nsStep (fun z op => op.prog.Within G z) z ops) : (runProg ops).Within G z := by
  induction ops generalizing z with
  | nil => trivial
  | cons op ops ih =>
      refine Prog.within_bind h.1 fun z' ok hop => Prog.within_bind (ih (h.tail ?_)) fun _ _ _ => trivial
      rw [← op.eval_prog, hop, Option.map_some]

/-- Over the map a run of operations does what it does to the store. -/
theorem eval_runProg (z : Zht) (ops : List NsOp) :
    (map.eval (runProg ops) z).map Prod.fst = run nsStep z ops := by
  induction ops generalizing z with
  | nil => rfl
  | cons op ops ih =>
      rw [runProg, Service.eval_bind, run_cons, ← op.eval_prog]
      cases map.eval op.prog z with
      | none => rfl
      | some r =>
          rw [Option.bind_some, Option.map_some, Option.bind_some, ← ih, Service.eval_bind]
          cases map.eval (runProg ops) r.1 with
          | none => rfl
          | some out => rfl

/-- **The namespace, down to the hash tables.** From new servers, a legal run of the operations whose
requests fit into messages gives, over the wire and the tables and if no table throws, the answers
that it gives over one map; and it leaves the servers with the tree that the operations make. It comes
to its end if each table that has to grow can be doubled. -/
theorem namespace_over_tables (net : ServerNet) (full : Int → Nat → Bool)
    {tables : HostEntity → NoVoHT} {size : Nat} (hsize : 0 < size) (m : Int)
    (hnew : ∀ dest, NoVoHT.construct full [] [] size m = some (tables dest)) (ops : List NsOp)
    (hops : Guarded nsStep (fun z op => NsLegal z op ∧
      op.prog.Within (fun z r => CleanRequest r ∧ Fitting z r) z) zhtInit ops) :
    let service := net.tableService full
    ∃ z answers, map.eval (mountedProg ops) (fun _ => none) = some (z, answers) ∧
      run nsStep zhtInit ops = some z ∧ NamespaceInvariant z ∧
      (∀ tables' answers', service.eval (mountedProg ops) tables = some (tables', answers') →
        answers' = answers ∧ ∀ key r, CleanRequest (.lookup key) → Fitting z (.lookup key) →
          service.lookup tables' key = some r → r.2 = z key) ∧
      (service.Along (net.HasRoom full) (mountedProg ops) tables →
        ∃ tables', service.eval (mountedProg ops) tables = some (tables', answers) ∧
          ∀ key, CleanRequest (.lookup key) → Fitting z (.lookup key) →
            (service.lookup tables' key).isSome) := by
  intro service
  have hempty : Stores net (fun _ => none) tables :=
    Stores.empty fun dest => NoVoHT.models_new hsize (hnew dest)
  have hmount : CleanRequest (.insert [slash] [space]) ∧ Fitting (fun _ => none) (.insert [slash] [space]) :=
    by decide
  have hwithin : (mountedProg ops).Within (fun z r => CleanRequest r ∧ Fitting z r) fun _ => none :=
    ⟨hmount, within_runProg (hops.mono fun _ _ h => h.2)⟩
  obtain ⟨z, hrun, htree⟩ := Tree.init.run (hops.mono fun _ _ h => h.1)
  have hfst := eval_runProg zhtInit ops
  rw [hrun, Option.map_eq_some_iff] at hfst
  obtain ⟨⟨z, answers⟩, heval, rfl⟩ := hfst
  have hmap : map.eval (mountedProg ops) (fun _ => none) = some (z, answers) := heval
  refine ⟨z, answers, hmap, hrun, htree.namespaceInvariant, ?_, ?_⟩
  · intro tables' answers' hservice
    obtain ⟨rfl, hstores⟩ := hempty.eval hwithin hmap hservice
    exact ⟨rfl, fun key r hclean hfits hlookup => hstores.lookup hclean hfits hlookup⟩
  · intro hroom
    have hkeeps := tableService_keeps net full
    obtain ⟨tables', hservice, hstores⟩ := hkeeps.eval hempty hwithin hroom hmap
    refine ⟨tables', hservice, fun key hclean hfits => ?_⟩
    obtain ⟨tables'', hlookup, -⟩ := hkeeps.lookup z tables' key hstores ⟨hclean, hfits⟩ trivial
    rw [hlookup]
    rfl

/-- When the servers' tables grow: `resizeNum` is 0.7. -/
def serverFull (numEl : Int) (size : Nat) : Bool := decide ((size : Int) * 7 ≤ numEl * 10)

/-- The table of a server that has just started, in memory. -/
def startedTable : NoVoHT := (NoVoHT.construct serverFull [] [] 100000 10000).get rfl

theorem namespace_over_tables_siblings :
    let service := (plainNet [⟨cstr "n1", 50000⟩, ⟨cstr "n2", 50000⟩]).tableService serverFull
    ∃ z answers tables', map.eval (mountedProg siblingOps) (fun _ => none) = some (z, answers) ∧
      service.eval (mountedProg siblingOps) (fun _ => startedTable) = some (tables', answers) ∧
      NamespaceInvariant z ∧ ∀ key, CleanRequest (.lookup key) → Fitting z (.lookup key) →
        ∃ r, service.lookup tables' key = some r ∧ r.2 = z key := by
  obtain ⟨z, answers, hmap, -, htree, hagree, hends⟩ :=
    namespace_over_tables (plainNet [⟨cstr "n1", 50000⟩, ⟨cstr "n2", 50000⟩]) serverFull
      (show 0 < 100000 by decide) 10000 (fun _ : HostEntity => show _ = some startedTable from rfl)
      siblingOps (by decide +kernel)
  obtain ⟨tables', hservice, hfound⟩ := hends (by decide +kernel)
  refine ⟨z, answers, tables', hmap, hservice, htree, fun key hclean hfits => ?_⟩
  obtain ⟨r, hr⟩ := Option.isSome_iff_exists.mp (hfound key hclean hfits)
  exact ⟨r, hr, (hagree tables' answers hservice).2 key r hclean hfits hr⟩

/-! ### Nodes in turns -/

section Turns

variable {n : Nat} {net : ServerNet} {tables : HostEntity → NoVoHT} {full : Int → Nat → Bool}
  {tasks : Fin n → Task}

/-- The tables hold the store, and each node has the program of its phase. -/
structure Serves (net : ServerNet) (tasks : Fin n → Task) (u : Nodes n)
    (v : World (Fin n) (HostEntity → NoVoHT) (Prog Bytes Bytes Bool)) : Prop where
  stores : Stores net u.shared v.shared
  procs : v.procs = fun i => (tasks i).rest (u.procs i)

namespace Serves

variable {u u' : Nodes n} {v v' : World (Fin n) (HostEntity → NoVoHT) (Prog Bytes Bytes Bool)}
  {i : Fin n} {z' : Zht}

theorem update (h : Serves net tasks u v) (hstores : Stores net z' tables) (t : Phase) :
    Serves net tasks ⟨z', Function.update u.procs i t⟩
      ⟨tables, Function.update v.procs i ((tasks i).rest t)⟩ := by
  refine ⟨hstores, funext fun j => ?_⟩
  by_cases hj : j = i
  · subst hj
    simp only [Function.update_self]
  · simp only [Function.update_of_ne hj, h.procs]

/-- A request that is answered is answered as by the store. -/
theorem step_agrees (h : Serves net tasks u v)
    (hfit : ∀ r ∈ ((tasks i).rest (u.procs i)).request, CleanRequest r ∧ Fitting u.shared r)
    (hu : serveTask tasks u i = some u')
    (hv : turn (fun _ => (net.tableService full).step) v i = some v') : Serves net tasks u' v' := by
  obtain ⟨⟨z', t'⟩, hrequest, rfl⟩ := Option.map_eq_some_iff.mp hu
  obtain ⟨⟨s', p'⟩, hstep, rfl⟩ := Option.map_eq_some_iff.mp hv
  rw [h.procs] at hstep
  obtain ⟨rfl, hstores⟩ := h.stores.step hfit (Task.step_rest hrequest) hstep
  exact h.update hstores t'

/-- And it is answered if its table has room. -/
theorem step (h : Serves net tasks u v) (hu : serveTask tasks u i = some u')
    (hfit : ∀ r ∈ ((tasks i).rest (u.procs i)).request, CleanRequest r ∧ Fitting u.shared r)
    (hroom : ∀ r ∈ (v.procs i).request, net.HasRoom full v.shared r) :
    ∃ v', turn (fun _ => (net.tableService full).step) v i = some v' ∧ Serves net tasks u' v' := by
  obtain ⟨⟨z', t'⟩, hrequest, rfl⟩ := Option.map_eq_some_iff.mp hu
  rw [h.procs] at hroom
  obtain ⟨s', hs', hstores⟩ :=
    (tableService_keeps net full).step h.stores hfit hroom (Task.step_rest hrequest)
  refine ⟨⟨s', Function.update v.procs i ((tasks i).rest t')⟩, ?_, h.update hstores t'⟩
  rw [turn, h.procs, hs', Option.map_some]

end Serves

end Turns

end FusionFS
