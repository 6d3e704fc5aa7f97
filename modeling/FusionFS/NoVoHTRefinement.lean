import FusionFS.NoVoHT

/-!
# The hash table is a finite map

Each bucket's chain is described by its pairs in order, with their addresses. The loops are specified
on that list, and the operations by how the lists change; the position a pair has in the file is not
part of the description.
-/

namespace FusionFS

open Chained

def Pair.kv (p : Pair) : Bytes × Bytes := (p.key, p.val)

namespace NoVoHT

/-- A pair of a chain: its address, its key and its value. -/
abbrev Entry := Nat × Bytes × Bytes

def pairs (h : Heap Pair) : Heap (Bytes × Bytes) := view Pair.kv h

/-- The pairs in a heap, without the links. -/
def datas (h : Heap Pair) (a : Nat) : Option Pair := (h a).map Node.data

/-- The table holds these chains. -/
structure Table (t : NoVoHT) (rows : Nat → List Entry) : Prop where
  pos : 0 < t.size
  chain : ∀ b < t.size, Linked (pairs t.heap) (t.kvpairs b) (rows b)
  bucket : ∀ b < t.size, ∀ e ∈ rows b, bucketOf e.2.1 t.size = b
  keys : ∀ b < t.size, ((rows b).map fun e => e.2.1).Nodup
  fresh : ∀ b < t.size, ∀ e ∈ rows b, e.1 < t.fresh

/-- The chains of a table hold what the map says. -/
def Holds (t : NoVoHT) (rows : Nat → List Entry) (st : Store) : Prop :=
  ∀ k v, st k = some v ↔ ∃ a, (a, k, v) ∈ rows (bucketOf k t.size)

/-- A table without a file has no name for one. -/
def Backed (t : NoVoHT) : Prop := t.dbfile = none → t.filename = []

theorem datas_of_some {h : Heap Pair} {a : Nat} {next : Option Nat} {data : Pair}
    (hnode : h a = some ⟨next, data⟩) : datas h a = some data := by
  rw [datas, hnode, Option.map_some]

theorem datas_update (h : Heap Pair) (a : Nat) (node : Node Pair) :
    datas (Function.update h a (some node)) = Function.update (datas h) a (some node.data) := by
  funext c
  by_cases hc : c = a
  · subst hc
    simp [datas]
  · simp [datas, hc]

theorem datas_free (h : Heap Pair) (a : Nat) :
    datas (Function.update h a none) = Function.update (datas h) a none := by
  funext c
  by_cases hc : c = a
  · subst hc
    simp [datas]
  · simp [datas, hc]

theorem datas_relink {h : Heap Pair} {a : Nat} {next next' : Option Nat} {data : Pair}
    (hnode : h a = some ⟨next, data⟩) :
    datas (Function.update h a (some ⟨next', data⟩)) = datas h := by
  rw [datas_update, ← datas_of_some hnode, Function.update_eq_self]

/-! ### The loops -/

variable {h : Heap Pair} {k : Bytes} {p : Option Nat} {cur fuel : Nat} {e : Entry} {es : List Entry}

theorem head_of_linked {a : Nat} {d : Bytes × Bytes} (hs : Linked (pairs h) p ((a, d) :: es)) :
    p = some a ∧ ∃ next data, h a = some ⟨next, data⟩ ∧ Pair.kv data = d ∧
      Linked (pairs h) next es := by
  obtain ⟨hp, next, hnode, hrest⟩ := hs
  obtain ⟨data, hsome, hkv⟩ := exists_of_view hnode
  exact ⟨hp, next, data, hsome, hkv, hrest⟩

theorem seek_of_linked (hs : Linked (pairs h) (some cur) es) (hfuel : es.length ≤ fuel) :
    (∃ l a v r, es = l ++ (a, k, v) :: r ∧ seek h k fuel cur = some (true, a)) ∨
      (∀ e ∈ es, e.2.1 ≠ k) ∧
        ∃ l a d, es = l ++ [(a, d)] ∧ seek h k fuel cur = some (false, a) := by
  induction es generalizing cur fuel with
  | nil => cases hs
  | cons e es ih =>
      obtain ⟨a, d⟩ := e
      obtain ⟨hcur, next, data, hnode, rfl, hrest⟩ := head_of_linked hs
      obtain rfl := Option.some.inj hcur
      cases fuel with
      | zero => cases hfuel
      | succ fuel =>
          have hfuel' : es.length ≤ fuel := Nat.le_of_succ_le_succ hfuel
          by_cases hk : k = data.key
          · subst hk
            refine .inl ⟨[], cur, data.val, es, rfl, ?_⟩
            cases next <;> simp [seek, hnode]
          · cases next with
            | none =>
                have hnil : es = [] := hrest.of_none
                subst hnil
                refine .inr ⟨?_, [], cur, _, rfl, by simp [seek, hnode, hk]⟩
                intro e he
                rw [List.mem_singleton.mp he]
                exact fun heq => hk heq.symm
            | some next =>
                have hstep : seek h k (fuel + 1) cur = seek h k fuel next := by
                  simp [seek, hnode, hk]
                rw [hstep]
                rcases ih hrest hfuel' with ⟨l, a, v, r, rfl, hfound⟩ | ⟨hnone, l, a, d, rfl, hlast⟩
                · exact .inl ⟨_ :: l, a, v, r, rfl, hfound⟩
                · refine .inr ⟨?_, _ :: l, a, d, rfl, hlast⟩
                  intro e he
                  rcases List.mem_cons.mp he with rfl | he
                  · exact fun heq => hk heq.symm
                  · exact hnone e he

theorem getLoop_of_linked (hs : Linked (pairs h) p es) (hfuel : es.length ≤ fuel) :
    (∃ a v, (a, k, v) ∈ es ∧ getLoop h k fuel p = some (some v)) ∨
      (∀ e ∈ es, e.2.1 ≠ k) ∧ getLoop h k fuel p = some none := by
  induction es generalizing p fuel with
  | nil =>
      cases hs
      refine .inr ⟨fun e he => absurd he List.not_mem_nil, ?_⟩
      cases fuel <;> rfl
  | cons e es ih =>
      obtain ⟨a, d⟩ := e
      obtain ⟨rfl, next, data, hnode, rfl, hrest⟩ := head_of_linked hs
      cases fuel with
      | zero => cases hfuel
      | succ fuel =>
          by_cases hk : k = data.key
          · subst hk
            exact .inl ⟨a, data.val, List.mem_cons_self, by simp [getLoop, hnode]⟩
          · have hstep : getLoop h k (fuel + 1) (some a) = getLoop h k fuel next := by
              simp [getLoop, hnode, hk]
            rw [hstep]
            rcases ih hrest (Nat.le_of_succ_le_succ hfuel) with ⟨b, v, hmem, hfound⟩ | ⟨hnone, hget⟩
            · exact .inl ⟨b, v, List.mem_cons_of_mem _ hmem, hfound⟩
            · refine .inr ⟨?_, hget⟩
              intro e he
              rcases List.mem_cons.mp he with rfl | he
              · exact fun heq => hk heq.symm
              · exact hnone e he

theorem seekPred_of_linked (hs : Linked (pairs h) (some cur) (e :: es)) (hfuel : es.length < fuel) :
    (∃ l a d b v r, e :: es = l ++ (a, d) :: (b, k, v) :: r ∧
        seekPred h k fuel cur = some (some (a, b))) ∨
      (∀ f ∈ es, f.2.1 ≠ k) ∧ seekPred h k fuel cur = some none := by
  induction es generalizing cur e fuel with
  | nil =>
      obtain ⟨hcur, next, data, hnode, -, hrest⟩ := head_of_linked hs
      obtain rfl := Option.some.inj hcur
      cases hrest
      cases fuel with
      | zero => cases hfuel
      | succ fuel => exact .inr ⟨fun f hf => absurd hf List.not_mem_nil, by simp [seekPred, hnode]⟩
  | cons f es ih =>
      obtain ⟨b, d'⟩ := f
      obtain ⟨hcur, next, data, hnode, hdata, hrest⟩ := head_of_linked hs
      obtain rfl := Option.some.inj hcur
      obtain ⟨rfl, next', data', hnode', rfl, -⟩ := head_of_linked hrest
      cases fuel with
      | zero => cases hfuel
      | succ fuel =>
          by_cases hk : k = data'.key
          · subst hk
            exact .inl ⟨[], e.1, e.2, b, data'.val, es, rfl, by simp [seekPred, hnode, hnode']⟩
          · have hstep : seekPred h k (fuel + 1) e.1 = seekPred h k fuel b := by
              simp [seekPred, hnode, hnode', hk]
            rw [hstep]
            rcases ih hrest (Nat.lt_of_succ_lt_succ hfuel) with
              ⟨l, a, d, c, v, r, heq, hfound⟩ | ⟨hnone, hget⟩
            · exact .inl ⟨e :: l, a, d, c, v, r, by rw [heq]; rfl, hfound⟩
            · refine .inr ⟨?_, hget⟩
              intro f hf
              rcases List.mem_cons.mp hf with rfl | hf
              · exact fun heq => hk heq.symm
              · exact hnone f hf

/-! ### The file -/

/-- What a file operation does to the table: it writes positions and the file. -/
def Filed (t : NoVoHT) (r : NoVoHT × Int) : Prop :=
  ∃ h f, r = ({ t with heap := h, dbfile := f }, 0) ∧ pairs h = pairs t.heap ∧
    f.isSome = t.dbfile.isSome

variable {t : NoVoHT} {rows : Nat → List Entry} {st : Store}

theorem noFile_of_backed (hb : t.Backed) (hf : t.dbfile = none) : t.noFile = 0 := if_pos (hb hf)

theorem write_filed (hb : t.Backed) {a : Nat} (ha : (t.heap a).isSome) :
    ∃ r, t.write a = some r ∧ t.Filed r := by
  unfold write
  cases hf : t.dbfile with
  | none =>
      rw [noFile_of_backed hb hf]
      exact ⟨_, rfl, t.heap, none, by rw [← hf], rfl, by rw [hf]⟩
  | some f =>
      obtain ⟨node, hnode⟩ := Option.isSome_iff_exists.mp ha
      rw [hnode]
      exact ⟨_, rfl, _, _, rfl, view_update_hidden hnode rfl, by rw [hf]; rfl⟩

/-- The file with the record at a position crossed out. -/
def struck (f : Option Stream) (position : Nat) : Option Stream :=
  f.map fun f => { f with pos := position }.puts [tilde]

@[simp]
theorem isSome_struck (f : Option Stream) (position : Nat) :
    (struck f position).isSome = f.isSome := Option.isSome_map

theorem mark_eq (hb : t.Backed) (position : Nat) :
    t.mark position = ({ t with dbfile := struck t.dbfile position }, 0) := by
  rw [mark]
  cases hf : t.dbfile with
  | none =>
      dsimp only
      rw [noFile_of_backed hb hf, struck, Option.map_none, ← hf]
  | some f => rfl

/-- A pair goes to the file unless its key or its value is empty. -/
def save (f : Stream) (e : Entry) : Stream :=
  if e.2.1 ≠ [] ∧ e.2.2 ≠ [] then f.puts (record e.2.1 e.2.2) else f

theorem writeChain_of_linked {f : Stream} (hs : Linked (pairs h) p es) (hfuel : es.length ≤ fuel) :
    ∃ h', writeChain fuel p (h, f) = some (h', es.foldl save f) ∧ pairs h' = pairs h := by
  induction es generalizing p fuel h f with
  | nil =>
      cases hs
      exact ⟨h, by cases fuel <;> rfl, rfl⟩
  | cons e es ih =>
      obtain ⟨a, d⟩ := e
      obtain ⟨rfl, next, data, hnode, rfl, hrest⟩ := head_of_linked hs
      cases fuel with
      | zero => cases hfuel
      | succ fuel =>
          have hfuel' : es.length ≤ fuel := Nat.le_of_succ_le_succ hfuel
          rw [List.foldl_cons, writeChain]
          dsimp only
          rw [hnode]
          by_cases hne : data.key ≠ [] ∧ data.val ≠ []
          · have hview : pairs (Function.update h a (some ⟨next, { data with pos := f.pos }⟩)) =
                pairs h := view_update_hidden hnode rfl
            obtain ⟨h', hrun, hpairs⟩ := ih (f := f.puts (record data.key data.val))
              (by rw [hview]; exact hrest) hfuel'
            refine ⟨h', ?_, hpairs.trans hview⟩
            simp only [if_pos hne]
            rw [hrun, save, Pair.kv, if_pos hne]
          · obtain ⟨h', hrun, hpairs⟩ := ih (f := f) hrest hfuel'
            refine ⟨h', ?_, hpairs⟩
            simp only [if_neg hne]
            rw [hrun, save, Pair.kv, if_neg hne]

theorem writeChains_of_linked {bs : List Nat} {buckets : Nat → Option Nat} {f : Stream}
    (hs : ∀ b ∈ bs, Linked (pairs h) (buckets b) (rows b)) (hfuel : ∀ b ∈ bs, (rows b).length ≤ fuel) :
    ∃ h', bs.foldlM (fun s i => writeChain fuel (buckets i) s) (h, f) =
      some (h', (bs.flatMap rows).foldl save f) ∧ pairs h' = pairs h := by
  induction bs generalizing h f with
  | nil => exact ⟨h, rfl, rfl⟩
  | cons b bs ih =>
      obtain ⟨h₁, hrun₁, hpairs₁⟩ := writeChain_of_linked (f := f) (hs b List.mem_cons_self)
        (hfuel b List.mem_cons_self)
      obtain ⟨h₂, hrun₂, hpairs₂⟩ := ih (h := h₁) (f := (rows b).foldl save f)
        (fun c hc => by rw [hpairs₁]; exact hs c (List.mem_cons_of_mem _ hc))
        (fun c hc => hfuel c (List.mem_cons_of_mem _ hc))
      refine ⟨h₂, ?_, hpairs₂.trans hpairs₁⟩
      rw [List.foldlM_cons, hrun₁, List.flatMap_cons, List.foldl_append]
      exact hrun₂

theorem Table.length_le (hT : t.Table rows) {b : Nat} (hb : b < t.size) :
    (rows b).length ≤ t.fresh := (hT.chain b hb).length_le (hT.fresh b hb)

/-- All pairs of a table, in the order its buckets are walked. -/
def Table.all (t : NoVoHT) (rows : Nat → List Entry) : List Entry := (List.range t.size).flatMap rows

/-- With a file, `writeFile` leaves all pairs of the table in it, and nothing else. -/
theorem writeFile_of_file (hT : t.Table rows) (hf : t.dbfile.isSome) :
    ∃ h, t.writeFile = some ({ t with
        heap := h
        dbfile := some ((Table.all t rows).foldl save ⟨[], 0⟩) }, 0) ∧ pairs h = pairs t.heap := by
  obtain ⟨f, hf⟩ := Option.isSome_iff_exists.mp hf
  obtain ⟨h, hrun, hpairs⟩ := writeChains_of_linked (f := ⟨[], 0⟩)
    (fun b hb => hT.chain b (List.mem_range.mp hb)) (fun b hb => hT.length_le (List.mem_range.mp hb))
  refine ⟨h, ?_, hpairs⟩
  rw [writeFile, hf]
  dsimp only
  rw [hrun]
  rfl

theorem writeFile_filed (hT : t.Table rows) (hb : t.Backed) :
    ∃ r, t.writeFile = some r ∧ t.Filed r := by
  cases hf : t.dbfile with
  | none =>
      refine ⟨(t, 0), ?_, t.heap, none, by rw [← hf], rfl, by rw [hf]⟩
      rw [writeFile, hf]
      dsimp only
      rw [noFile_of_backed hb hf]
  | some f =>
      obtain ⟨h, hrun, hpairs⟩ := writeFile_of_file hT (by rw [hf]; rfl)
      exact ⟨_, hrun, h, _, rfl, hpairs, by rw [hf]; rfl⟩

theorem Table.filed (hT : t.Table rows) {r : NoVoHT × Int} (hr : t.Filed r) :
    r.1.Table rows ∧ r.2 = 0 ∧ (∀ st, t.Holds rows st → r.1.Holds rows st) ∧
      (t.Backed → r.1.Backed) := by
  obtain ⟨h, f, rfl, hpairs, hfile⟩ := hr
  refine ⟨⟨hT.pos, ?_, hT.bucket, hT.keys, hT.fresh⟩, rfl, fun st hst => hst, ?_⟩
  · intro b hb
    rw [hpairs]
    exact hT.chain b hb
  · intro hb hnone
    apply hb
    rw [show f = none from hnone] at hfile
    exact Option.isSome_eq_false_iff.mp hfile.symm |> Option.isNone_iff_eq_none.mp

/-! ### Editing one chain -/

theorem Table.bucket_unique (hT : t.Table rows) {b c : Nat} (hb : b < t.size) (hc : c < t.size)
    {e f : Entry} (he : e ∈ rows b) (hf : f ∈ rows c) (heq : e.1 = f.1) : b = c := by
  obtain ⟨next, hnode⟩ := (hT.chain b hb).mem he
  obtain ⟨next', hnode'⟩ := (hT.chain c hc).mem hf
  rw [← heq, hnode, Option.some.injEq, Node.mk.injEq] at hnode'
  calc b = bucketOf e.2.1 t.size := (hT.bucket b hb e he).symm
    _ = bucketOf f.2.1 t.size := by rw [hnode'.2]
    _ = c := hT.bucket c hc f hf

theorem Table.edit (hT : t.Table rows) {t' : NoVoHT} {b : Nat} (hb : b < t.size)
    (hsize : t'.size = t.size) (hfresh : t.fresh ≤ t'.fresh)
    (hother : ∀ c, c ≠ b → t'.kvpairs c = t.kvpairs c)
    (hagree : ∀ a < t.fresh, (∀ e ∈ rows b, e.1 ≠ a) → pairs t'.heap a = pairs t.heap a)
    (hchain : Linked (pairs t'.heap) (t'.kvpairs b) es)
    (hmem : ∀ e ∈ es, bucketOf e.2.1 t.size = b ∧ e.1 < t'.fresh)
    (hkeys : (es.map fun e => e.2.1).Nodup) : t'.Table (Function.update rows b es) where
  pos := by
    rw [hsize]
    exact hT.pos
  chain c hc := by
    rw [hsize] at hc
    by_cases hcb : c = b
    · subst hcb
      rwa [Function.update_self]
    · rw [Function.update_of_ne hcb, hother c hcb]
      refine (hT.chain c hc).frame fun e he => hagree e.1 (hT.fresh c hc e he) ?_
      intro f hf heq
      exact hcb (hT.bucket_unique hc hb he hf heq.symm)
  bucket c hc e he := by
    rw [hsize] at hc ⊢
    by_cases hcb : c = b
    · subst hcb
      rw [Function.update_self] at he
      exact (hmem e he).1
    · rw [Function.update_of_ne hcb] at he
      exact hT.bucket c hc e he
  keys c hc := by
    rw [hsize] at hc
    by_cases hcb : c = b
    · subst hcb
      rwa [Function.update_self]
    · rw [Function.update_of_ne hcb]
      exact hT.keys c hc
  fresh c hc e he := by
    rw [hsize] at hc
    by_cases hcb : c = b
    · subst hcb
      rw [Function.update_self] at he
      exact (hmem e he).2
    · rw [Function.update_of_ne hcb] at he
      exact (hT.fresh c hc e he).trans_le hfresh

/-- The chain of a key has that key's value, and the other keys keep theirs. -/
theorem Holds.edit (hH : t.Holds rows st) {t' : NoVoHT} {o : Option Bytes}
    (hsize : t'.size = t.size) (hself : ∀ v, o = some v ↔ ∃ a, (a, k, v) ∈ es)
    (hrest : ∀ k' v, k' ≠ k →
      ((∃ a, (a, k', v) ∈ es) ↔ ∃ a, (a, k', v) ∈ rows (bucketOf k t.size))) :
    t'.Holds (Function.update rows (bucketOf k t.size) es) (Function.update st k o) := by
  intro k' v
  rw [hsize]
  by_cases hk : k' = k
  · subst hk
    rw [Function.update_self, Function.update_self]
    exact hself v
  · rw [Function.update_of_ne hk, hH k' v]
    by_cases hbucket : bucketOf k' t.size = bucketOf k t.size
    · rw [hbucket, Function.update_self, hrest k' v hk]
    · rw [Function.update_of_ne hbucket]

/-- The table is a finite map. -/
def Models (t : NoVoHT) (st : Store) : Prop :=
  t.Backed ∧ ∃ rows, t.Table rows ∧ t.Holds rows st

theorem Models.filed {r : NoVoHT × Int} (hm : t.Models st) (hr : t.Filed r) :
    r.1.Models st ∧ r.2 = 0 ∧ r.1.dbfile.isSome = t.dbfile.isSome := by
  obtain ⟨hb, rows, hT, hH⟩ := hm
  obtain ⟨hT', hret, hH', hb'⟩ := hT.filed hr
  refine ⟨⟨hb' hb, rows, hT', hH' st hH⟩, hret, ?_⟩
  obtain ⟨h, f, rfl, -, hfile⟩ := hr
  exact hfile

theorem Table.bucketOf_lt (hT : t.Table rows) (k : Bytes) : bucketOf k t.size < t.size :=
  Nat.mod_lt _ hT.pos

theorem Table.chain_of (hT : t.Table rows) (k : Bytes) : Linked (pairs t.heap)
    (t.kvpairs (bucketOf k t.size)) (rows (bucketOf k t.size)) := hT.chain _ (hT.bucketOf_lt k)

theorem Table.length_le_of (hT : t.Table rows) (k : Bytes) :
    (rows (bucketOf k t.size)).length ≤ t.fresh := hT.length_le (hT.bucketOf_lt k)

theorem Table.value_unique (hT : t.Table rows) {l r : List Entry} {a c : Nat} {d : Bytes × Bytes}
    {v : Bytes} (hrow : rows (bucketOf k t.size) = l ++ (a, k, v) :: r)
    (hmem : (c, d) ∈ l ++ r) : d.1 ≠ k := by
  have hkeys := hT.keys _ (hT.bucketOf_lt k)
  rw [hrow, List.map_append, List.map_cons] at hkeys
  have hnot := (List.nodup_middle.mp hkeys)
  intro heq
  apply (List.nodup_cons.mp hnot).1
  rw [← List.map_append]
  exact List.mem_map.mpr ⟨(c, d), hmem, heq⟩

/-! ### The operations -/

theorem get_models (hm : t.Models st) (hk : k ≠ []) : t.get k = some (st k) := by
  obtain ⟨-, rows, hT, hH⟩ := hm
  rw [get, if_neg hk]
  rcases getLoop_of_linked (k := k) (hT.chain_of k) (hT.length_le_of k) with
    ⟨a, v, hmem, hget⟩ | ⟨hnone, hget⟩
  · rw [hget, (hH k v).mpr ⟨a, hmem⟩]
  · rw [hget]
    cases hst : st k with
    | none => rfl
    | some v =>
        obtain ⟨a, hmem⟩ := (hH k v).mp hst
        exact absurd rfl (hnone _ hmem)

theorem overwrite_models (hb : t.Backed) (hT : t.Table rows) (hH : t.Holds rows st) {v v' : Bytes}
    {a : Nat} {l r : List Entry} (hrow : rows (bucketOf k t.size) = l ++ (a, k, v) :: r) :
    ∃ s, t.overwrite a v' = some s ∧ s.1.Models (Function.update st k (some v')) ∧ s.2 = 0 ∧
      s.1.dbfile.isSome = t.dbfile.isSome := by
  have hchain := hT.chain_of k
  have hbucket := hT.bucket _ (hT.bucketOf_lt k)
  have hfresh := hT.fresh _ (hT.bucketOf_lt k)
  have hkeys := hT.keys _ (hT.bucketOf_lt k)
  rw [hrow] at hchain hbucket hfresh hkeys
  obtain ⟨next, hview⟩ := hchain.mem (List.mem_append_right l List.mem_cons_self)
  obtain ⟨data, hnode, hdata⟩ := exists_of_view hview
  obtain ⟨hkey, -⟩ := Prod.mk.inj hdata
  generalize ht₁ : ({ t with
    heap := Function.update t.heap a (some ⟨next, { data with val := v' }⟩) } : NoVoHT) = t₁
  have hheap : pairs t₁.heap = Function.update (pairs t.heap) a (some ⟨next, (k, v')⟩) := by
    rw [← ht₁, ← hkey]
    exact view_update Pair.kv t.heap a _
  have hsize : t₁.size = t.size := by rw [← ht₁]
  have hmodels : t₁.Models (Function.update st k (some v')) := by
    refine ⟨by rw [← ht₁]; exact hb,
      Function.update rows (bucketOf k t.size) (l ++ (a, k, v') :: r),
      hT.edit (hT.bucketOf_lt k) hsize (by rw [← ht₁])
        (fun c _ => by rw [← ht₁]) ?_ ?_ ?_ ?_, hH.edit hsize ?_ ?_⟩
    · intro c _ hc
      rw [hheap, Function.update_of_ne]
      rintro rfl
      exact hc (c, k, v) (by rw [hrow]; simp) rfl
    · rw [show t₁.kvpairs = t.kvpairs by rw [← ht₁], hheap]
      exact hchain.setData hview (Function.update_self ..) fun c hc => Function.update_of_ne hc ..
    · intro e he
      rw [show t₁.fresh = t.fresh by rw [← ht₁]]
      rcases List.mem_append.mp he with he | he
      · exact ⟨hbucket e (by simp [he]), hfresh e (by simp [he])⟩
      · rcases List.mem_cons.mp he with rfl | he
        · exact ⟨rfl, hfresh (a, k, v) (by simp)⟩
        · exact ⟨hbucket e (by simp [he]), hfresh e (by simp [he])⟩
    · simpa using hkeys
    · intro w
      constructor
      · rintro hw
        cases hw
        exact ⟨a, by simp⟩
      · rintro ⟨c, hmem⟩
        rcases List.mem_append.mp hmem with hmem | hmem
        · exact absurd rfl (hT.value_unique hrow (List.mem_append_left r hmem))
        · rcases List.mem_cons.mp hmem with heq | hmem
          · cases heq
            rfl
          · exact absurd rfl (hT.value_unique hrow (List.mem_append_right l hmem))
    · intro k' w hk
      rw [hrow]
      constructor <;> rintro ⟨c, hmem⟩ <;> refine ⟨c, ?_⟩ <;>
        simpa [hk] using hmem
  have hmark := mark_eq (t := t₁) hmodels.1 data.pos
  have hfile := isSome_struck t₁.dbfile data.pos
  generalize struck t₁.dbfile data.pos = f at hmark hfile
  have hmarked : ({ t₁ with dbfile := f } : NoVoHT).Models (Function.update st k (some v')) :=
    (hmodels.filed (r := ({ t₁ with dbfile := f }, 0)) ⟨t₁.heap, f, rfl, rfl, hfile⟩).1
  have hsome : (t₁.heap a).isSome := by
    rw [← ht₁]
    simp
  obtain ⟨s, hwrite, hfiled⟩ := write_filed hmarked.1 (a := a) hsome
  obtain ⟨hs, hret, hopen⟩ := hmarked.filed hfiled
  refine ⟨s, ?_, hs, hret, hopen.trans (hfile.trans (by rw [← ht₁]))⟩
  rw [overwrite, hnode, Option.bind_some]
  dsimp only
  rw [ht₁, hmark]
  exact hwrite

theorem append_models (hb : t.Backed) (hT : t.Table rows) (hH : t.Holds rows st) {v : Bytes}
    (hnone : ∀ e ∈ rows (bucketOf k t.size), e.2.1 ≠ k) {t' : NoVoHT} (hfile : t'.dbfile = t.dbfile)
    (hname : t'.filename = t.filename) (hsize : t'.size = t.size) (hfresh : t'.fresh = t.fresh + 1)
    (hother : ∀ c, c ≠ bucketOf k t.size → t'.kvpairs c = t.kvpairs c)
    (hagree : ∀ a < t.fresh, (∀ e ∈ rows (bucketOf k t.size), e.1 ≠ a) →
      pairs t'.heap a = pairs t.heap a)
    (hchain : Linked (pairs t'.heap) (t'.kvpairs (bucketOf k t.size))
      (rows (bucketOf k t.size) ++ [(t.fresh, k, v)])) :
    t'.Models (Function.update st k (some v)) := by
  refine ⟨fun hf => hname.trans (hb (hfile.symm.trans hf)), _,
    hT.edit (hT.bucketOf_lt k) hsize (by omega) hother hagree hchain ?_ ?_, hH.edit hsize ?_ ?_⟩
  · intro e he
    rw [hfresh]
    rcases List.mem_append.mp he with he | he
    · exact ⟨hT.bucket _ (hT.bucketOf_lt k) e he,
        (hT.fresh _ (hT.bucketOf_lt k) e he).trans (Nat.lt_succ_self _)⟩
    · rw [List.mem_singleton.mp he]
      exact ⟨rfl, Nat.lt_succ_self _⟩
  · rw [List.map_append]
    refine (hT.keys _ (hT.bucketOf_lt k)).append (List.nodup_singleton k) ?_
    intro k' hk' hmem
    obtain ⟨e, he, rfl⟩ := List.mem_map.mp hk'
    exact hnone e he (List.mem_singleton.mp hmem)
  · intro w
    constructor
    · rintro hw
      cases hw
      exact ⟨t.fresh, List.mem_append_right _ (List.mem_singleton_self _)⟩
    · rintro ⟨c, hmem⟩
      rcases List.mem_append.mp hmem with hmem | hmem
      · exact absurd rfl (hnone _ hmem)
      · cases List.mem_singleton.mp hmem
        rfl
  · intro k' w hk
    simp [hk]

theorem linkBehind_models (hb : t.Backed) (hT : t.Table rows) (hH : t.Holds rows st) {v : Bytes}
    {a : Nat} {d : Bytes × Bytes} {l : List Entry}
    (hnone : ∀ e ∈ rows (bucketOf k t.size), e.2.1 ≠ k)
    (hrow : rows (bucketOf k t.size) = l ++ [(a, d)]) :
    ∃ s, t.linkBehind a t.fresh ⟨k, v, 0⟩ = some s ∧
      s.1.Models (Function.update st k (some v)) ∧ s.2 = 0 ∧
      s.1.dbfile.isSome = t.dbfile.isSome := by
  have hchain := hT.chain_of k
  have hfresh := hT.fresh _ (hT.bucketOf_lt k)
  rw [hrow] at hchain hfresh
  obtain ⟨next, hview⟩ := hchain.mem (List.mem_append_right l List.mem_cons_self)
  obtain ⟨data, hnode, hdata⟩ := exists_of_view hview
  have ha : a < t.fresh := hfresh (a, d) (by simp)
  generalize ht₁ : ({ t with
    heap := Function.update (Function.update t.heap t.fresh (some ⟨none, ⟨k, v, 0⟩⟩)) a
      (some ⟨some t.fresh, data⟩)
    fresh := t.fresh + 1
    numEl := t.numEl + 1 } : NoVoHT) = t₁
  have hheap : pairs t₁.heap = Function.update (Function.update (pairs t.heap) t.fresh
      (some ⟨none, (k, v)⟩)) a (some ⟨some t.fresh, d⟩) := by
    rw [← ht₁, ← hdata]
    exact (view_update Pair.kv _ a _).trans (by rw [view_update]; rfl)
  have hmodels : t₁.Models (Function.update st k (some v)) := by
    refine append_models hb hT hH hnone (by rw [← ht₁]) (by rw [← ht₁]) (by rw [← ht₁])
      (by rw [← ht₁]) (fun c _ => by rw [← ht₁]) ?_ ?_
    · intro c hc hrest
      rw [hheap, Function.update_of_ne, Function.update_of_ne hc.ne]
      rintro rfl
      exact hrest (c, d) (by rw [hrow]; simp) rfl
    · rw [show t₁.kvpairs = t.kvpairs by rw [← ht₁], hheap, hrow, List.append_assoc]
      refine hchain.snoc (Function.update_self ..) ?_ ?_ ?_
      · rw [Function.update_of_ne ha.ne', Function.update_self]
      · exact fun e he => (hfresh e he).ne
      · intro c hca hcb
        rw [Function.update_of_ne hca, Function.update_of_ne hcb]
  obtain ⟨s, hwrite, hfiled⟩ := write_filed hmodels.1 (a := t.fresh) (by
    rw [← ht₁]
    simp [ha.ne'])
  obtain ⟨hs, hret, hopen⟩ := hmodels.filed hfiled
  refine ⟨s, ?_, hs, hret, hopen.trans (by rw [← ht₁])⟩
  rw [linkBehind, hnode, Option.bind_some, ht₁]
  exact hwrite

theorem insert_models (hm : t.Models st) (k v : Bytes) :
    ∃ s, t.insert k v = some s ∧ s.1.Models (Function.update st k (some v)) ∧ s.2 = 0 ∧
      s.1.dbfile.isSome = t.dbfile.isSome := by
  obtain ⟨hb, rows, hT, hH⟩ := hm
  have hchain := hT.chain_of k
  unfold insert
  dsimp only
  cases hslot : t.kvpairs (bucketOf k t.size) with
  | none =>
      rw [hslot] at hchain
      have hrow : rows (bucketOf k t.size) = [] := hchain.of_none
      generalize ht₁ : ({ t with
        kvpairs := Function.update t.kvpairs (bucketOf k t.size) (some t.fresh)
        heap := Function.update t.heap t.fresh (some ⟨none, ⟨k, v, 0⟩⟩)
        fresh := t.fresh + 1
        numEl := t.numEl + 1 } : NoVoHT) = t₁
      have hheap : pairs t₁.heap =
          Function.update (pairs t.heap) t.fresh (some ⟨none, (k, v)⟩) := by
        rw [← ht₁]
        exact view_update Pair.kv t.heap t.fresh _
      have hmodels : t₁.Models (Function.update st k (some v)) := by
        refine append_models hb hT hH (by rw [hrow]; exact fun e he => absurd he List.not_mem_nil)
          (by rw [← ht₁]) (by rw [← ht₁]) (by rw [← ht₁]) (by rw [← ht₁]) ?_ ?_ ?_
        · intro c hc
          rw [← ht₁]
          exact Function.update_of_ne hc ..
        · intro a ha _
          rw [hheap, Function.update_of_ne ha.ne]
        · rw [hrow, hheap, ← ht₁]
          exact ⟨Function.update_self .., none, Function.update_self .., rfl⟩
      obtain ⟨s, hwrite, hfiled⟩ := write_filed hmodels.1 (a := t.fresh) (by
        rw [← ht₁]
        simp)
      obtain ⟨hs, hret, hopen⟩ := hmodels.filed hfiled
      exact ⟨s, hwrite, hs, hret, hopen.trans (by rw [← ht₁])⟩
  | some first =>
      rw [hslot] at hchain
      dsimp only
      rcases seek_of_linked (k := k) hchain (hT.length_le_of k) with
        ⟨l, a, w, r, hrow, hseek⟩ | ⟨hnone, l, a, d, hrow, hseek⟩
      · rw [hseek]
        exact overwrite_models hb hT hH hrow
      · rw [hseek]
        exact linkBehind_models hb hT hH hnone hrow

theorem Holds.isNone (hH : t.Holds rows st) (hnone : ∀ e ∈ rows (bucketOf k t.size), e.2.1 ≠ k) :
    st k = none := by
  by_contra hsome
  obtain ⟨v, hv⟩ := Option.ne_none_iff_exists'.mp hsome
  obtain ⟨a, hmem⟩ := (hH k v).mp hv
  exact hnone _ hmem rfl

/-- `t₁` is the table once the pair at `a` is this one. -/
structure Added (t t₁ : NoVoHT) (a : Nat) (data : Pair) : Prop where
  heap : datas t₁.heap = Function.update (datas t.heap) a (some data)
  dbfile : t₁.dbfile = t.dbfile
  numEl : t₁.numEl = t.numEl + 1

/-- What `put` can do: to write over the pair of the key, or to add one at a fresh address. -/
theorem insert_cases (hm : t.Models st) (k v : Bytes) :
    (st k = none ∧ ∃ t₁, t.insert k v = t₁.write t.fresh ∧ t.Added t₁ t.fresh ⟨k, v, 0⟩) ∨
      ∃ a data, data.key = k ∧ st k = some data.val ∧ datas t.heap a = some data ∧
        t.insert k v = t.overwrite a v := by
  obtain ⟨-, rows, hT, hH⟩ := hm
  have hchain := hT.chain_of k
  unfold insert
  dsimp only
  cases hslot : t.kvpairs (bucketOf k t.size) with
  | none =>
      rw [hslot] at hchain
      refine .inl ⟨hH.isNone ?_, _, rfl, datas_update .., rfl, rfl⟩
      rw [show rows (bucketOf k t.size) = [] from hchain.of_none]
      exact fun e he => absurd he List.not_mem_nil
  | some first =>
      rw [hslot] at hchain
      dsimp only
      rcases seek_of_linked (k := k) hchain (hT.length_le_of k) with
        ⟨l, a, w, r, hrow, hseek⟩ | ⟨hnone, l, a, d, hrow, hseek⟩
      · have hmem : (a, k, w) ∈ rows (bucketOf k t.size) := by
          rw [hrow]
          simp
        obtain ⟨next, hview⟩ := hchain.mem hmem
        obtain ⟨data, hnode, hkv⟩ := exists_of_view hview
        obtain ⟨hkey, hval⟩ := Prod.mk.inj hkv
        rw [hseek]
        refine .inr ⟨a, data, hkey, ?_, datas_of_some hnode, rfl⟩
        rw [hval]
        exact (hH k w).mpr ⟨a, hmem⟩
      · have hmem : (a, d) ∈ rows (bucketOf k t.size) := by
          rw [hrow]
          simp
        obtain ⟨next, hview⟩ := hchain.mem hmem
        obtain ⟨data, hnode, -⟩ := exists_of_view hview
        have hne : a ≠ t.fresh := (hT.fresh _ (hT.bucketOf_lt k) _ hmem).ne
        rw [hseek, Option.bind_some, if_neg (by simp), linkBehind, hnode, Option.bind_some]
        refine .inl ⟨hH.isNone hnone, _, rfl, ?_, rfl, rfl⟩
        have hnode' : Function.update t.heap t.fresh (some ⟨none, ⟨k, v, 0⟩⟩) a =
            some ⟨next, data⟩ := by
          rw [Function.update_of_ne hne, hnode]
        exact (datas_relink hnode').trans (datas_update ..)

theorem drop_models (hb : t.Backed) (hT : t.Table rows) (hH : t.Holds rows st) {a : Nat} {v : Bytes}
    {l r : List Entry} (hrow : rows (bucketOf k t.size) = l ++ (a, k, v) :: r) {t' : NoVoHT}
    (hfile : t'.dbfile.isSome = t.dbfile.isSome) (hname : t'.filename = t.filename)
    (hsize : t'.size = t.size) (hfresh : t'.fresh = t.fresh)
    (hother : ∀ c, c ≠ bucketOf k t.size → t'.kvpairs c = t.kvpairs c)
    (hagree : ∀ c, (∀ e ∈ rows (bucketOf k t.size), e.1 ≠ c) →
      pairs t'.heap c = pairs t.heap c)
    (hchain : Linked (pairs t'.heap) (t'.kvpairs (bucketOf k t.size)) (l ++ r)) :
    t'.Models (Function.update st k none) := by
  have hsub : ∀ e ∈ l ++ r, e ∈ rows (bucketOf k t.size) := by
    intro e he
    rw [hrow]
    rcases List.mem_append.mp he with he | he
    · exact List.mem_append_left _ he
    · exact List.mem_append_right _ (List.mem_cons_of_mem _ he)
  refine ⟨fun hf => hname.trans (hb ?_), _,
    hT.edit (hT.bucketOf_lt k) hsize hfresh.ge hother (fun c _ => hagree c) hchain ?_ ?_,
    hH.edit hsize ?_ ?_⟩
  · rw [hf] at hfile
    exact Option.isNone_iff_eq_none.mp (Option.isSome_eq_false_iff.mp hfile.symm)
  · intro e he
    rw [hfresh]
    exact ⟨hT.bucket _ (hT.bucketOf_lt k) e (hsub e he), hT.fresh _ (hT.bucketOf_lt k) e (hsub e he)⟩
  · have hkeys := hT.keys _ (hT.bucketOf_lt k)
    rw [hrow, List.map_append, List.map_cons] at hkeys
    rw [List.map_append]
    exact (List.nodup_cons.mp (List.nodup_middle.mp hkeys)).2
  · intro w
    constructor
    · intro hw
      cases hw
    · rintro ⟨c, hmem⟩
      exact absurd rfl (hT.value_unique hrow hmem)
  · intro k' w hk
    rw [hrow]
    constructor <;> rintro ⟨c, hmem⟩ <;> refine ⟨c, ?_⟩ <;> simpa [hk] using hmem

theorem Models.setRem (hm : t.Models st) (n : Int) : Models { t with nRem := n } st := by
  obtain ⟨hb, rows, hT, hH⟩ := hm
  exact ⟨hb, rows, ⟨hT.pos, hT.chain, hT.bucket, hT.keys, hT.fresh⟩, hH⟩

theorem removed_models (hm : t.Models st) : ∃ s, t.removed 0 = some s ∧ s.1.Models st ∧ s.2 = 0 ∧
    s.1.dbfile.isSome = t.dbfile.isSome := by
  have hm₁ := hm.setRem (t.nRem + 1)
  unfold removed
  by_cases hfull : t.nRem + 1 = t.magicNumber
  · rw [if_pos hfull]
    have hwf := hm₁
    obtain ⟨hb, rows, hT, -⟩ := hwf
    obtain ⟨s, hwrite, hfiled⟩ := writeFile_filed hT hb
    obtain ⟨hs, hret, hopen⟩ := hm₁.filed hfiled
    rw [hwrite]
    refine ⟨_, rfl, hs.setRem 0, ?_, hopen⟩
    dsimp only
    rw [hret, Int.add_zero]
  · rw [if_neg hfull]
    exact ⟨_, rfl, hm₁, rfl, rfl⟩

/-- `t₁` is the table once the pair at `a` is unlinked, crossed out and freed. -/
structure Unlinked (t t₁ : NoVoHT) (a : Nat) (data : Pair) : Prop where
  found : datas t.heap a = some data
  heap : datas t₁.heap = Function.update (datas t.heap) a none
  dbfile : t₁.dbfile = struck t.dbfile data.pos
  numEl : t₁.numEl = t.numEl - 1

theorem Unlinked.isSome {t₁ : NoVoHT} {a : Nat} {data : Pair} (h : t.Unlinked t₁ a data) :
    t₁.dbfile.isSome = t.dbfile.isSome := by
  rw [h.dbfile, isSome_struck]

theorem remove_first (hb : t.Backed) (hT : t.Table rows) (hH : t.Holds rows st) {cur : Nat}
    {next : Option Nat} {data : Pair} {row : List Entry}
    (hslot : t.kvpairs (bucketOf data.key t.size) = some cur) (hnode : t.heap cur = some ⟨next, data⟩)
    (hrow : rows (bucketOf data.key t.size) = (cur, Pair.kv data) :: row)
    (hrest : Linked (pairs t.heap) next row) :
    ∃ t₁, t.remove data.key = t₁.removed 0 ∧ t₁.Models (Function.update st data.key none) ∧
      t.Unlinked t₁ cur data := by
  have hchain := hT.chain_of data.key
  have hmark := mark_eq (t := { t with
    kvpairs := Function.update t.kvpairs (bucketOf data.key t.size) next
    numEl := t.numEl - 1 }) hb data.pos
  have hfile := isSome_struck t.dbfile data.pos
  generalize ht₁ : ({ t with
    kvpairs := Function.update t.kvpairs (bucketOf data.key t.size) next
    numEl := t.numEl - 1
    dbfile := struck t.dbfile data.pos
    heap := Function.update t.heap cur none } : NoVoHT) = t₁
  have hheap : pairs t₁.heap = Function.update (pairs t.heap) cur none := by
    rw [← ht₁]
    exact view_free Pair.kv t.heap cur
  have hmodels : t₁.Models (Function.update st data.key none) := by
    refine drop_models hb hT hH (l := []) (a := cur) (v := data.val) (r := row) hrow
      (by rw [← ht₁]; exact hfile) (by rw [← ht₁]) (by rw [← ht₁]) (by rw [← ht₁]) ?_ ?_ ?_
    · intro c hc
      rw [← ht₁]
      exact Function.update_of_ne hc ..
    · intro c hc
      rw [hheap, Function.update_of_ne]
      rintro rfl
      exact hc (c, Pair.kv data) (by rw [hrow]; exact List.mem_cons_self) rfl
    · rw [hslot, hrow] at hchain
      have hnot := (Linked.notMem_of_nodup (show Linked _ _ ([] ++ _ :: _) from hchain)).2
      rw [hheap, ← ht₁]
      dsimp only
      rw [Function.update_self]
      exact hrest.frame fun e he => Function.update_of_ne (hnot e he) ..
  refine ⟨t₁, ?_, hmodels, datas_of_some hnode, ?_, ?_, ?_⟩
  · unfold remove
    dsimp only
    rw [hslot]
    dsimp only
    rw [hnode, Option.bind_some, if_pos rfl, hmark, ← ht₁]
  · rw [← ht₁]
    exact datas_free t.heap cur
  · rw [← ht₁]
  · rw [← ht₁]

theorem remove_behind (hb : t.Backed) (hT : t.Table rows) (hH : t.Holds rows st) {cur a b : Nat}
    {node : Node Pair} {d : Bytes × Bytes} {v : Bytes} {l r : List Entry}
    (hslot : t.kvpairs (bucketOf k t.size) = some cur) (hnode : t.heap cur = some node)
    (hk : k ≠ node.data.key) (hfound : seekPred t.heap k t.fresh cur = some (some (a, b)))
    (hrow : rows (bucketOf k t.size) = l ++ (a, d) :: (b, k, v) :: r) :
    ∃ t₁ data, t.remove k = t₁.removed 0 ∧ t₁.Models (Function.update st k none) ∧
      Pair.kv data = (k, v) ∧ t.Unlinked t₁ b data := by
  have hrow' : rows (bucketOf k t.size) = (l ++ [(a, d)]) ++ (b, k, v) :: r := by simp [hrow]
  have hchain := hT.chain_of k
  rw [hrow] at hchain
  obtain ⟨next₁, hview₁⟩ := hchain.mem (List.mem_append_right l List.mem_cons_self)
  obtain ⟨pred, hpred, rfl⟩ := exists_of_view hview₁
  obtain ⟨next, hview⟩ := hchain.mem
    (List.mem_append_right l (List.mem_cons_of_mem _ List.mem_cons_self))
  obtain ⟨data, hdata, hkv⟩ := exists_of_view hview
  have hmark := mark_eq (t := { t with
    heap := Function.update t.heap a (some ⟨next, pred⟩) }) hb data.pos
  have hfile := isSome_struck t.dbfile data.pos
  generalize ht₁ : ({ t with
    heap := Function.update (Function.update t.heap a (some ⟨next, pred⟩)) b none
    numEl := t.numEl - 1
    dbfile := struck t.dbfile data.pos } : NoVoHT) = t₁
  have hheap : pairs t₁.heap =
      Function.update (Function.update (pairs t.heap) a (some ⟨next, Pair.kv pred⟩)) b none := by
    rw [← ht₁]
    exact (view_free Pair.kv _ b).trans (by rw [view_update]; rfl)
  have hmodels : t₁.Models (Function.update st k none) := by
    refine drop_models hb hT hH hrow' (by rw [← ht₁]; exact hfile) (by rw [← ht₁]) (by rw [← ht₁])
      (by rw [← ht₁]) (fun c _ => by rw [← ht₁]) ?_ ?_
    · intro c hc
      rw [hheap, Function.update_of_ne, Function.update_of_ne]
      · rintro rfl
        exact hc (c, Pair.kv pred) (by rw [hrow]; simp) rfl
      · rintro rfl
        exact hc (c, k, v) (by rw [hrow]; simp) rfl
    · have hab : a ≠ b := ((hchain.notMem_of_nodup).2 (b, k, v) List.mem_cons_self).symm
      rw [hheap, show t₁.kvpairs = t.kvpairs by rw [← ht₁], List.append_assoc]
      refine hchain.unlink hview ?_ ?_
      · rw [Function.update_of_ne hab, Function.update_self]
      · intro c hca hcb
        rw [Function.update_of_ne hcb, Function.update_of_ne hca]
  refine ⟨t₁, data, ?_, hmodels, hkv, datas_of_some hdata, ?_, ?_, ?_⟩
  · unfold remove
    dsimp only
    rw [hslot]
    dsimp only
    rw [hnode, Option.bind_some, if_neg hk, hfound, Option.bind_some]
    dsimp only
    rw [hpred, Option.bind_some, hdata, Option.bind_some, hmark, ← ht₁]
  · rw [← ht₁]
    dsimp only
    rw [datas_free, datas_relink hpred]
  · rw [← ht₁]
  · rw [← ht₁]

/-- What `remove` can do: nothing, or to unlink the pair of the key. -/
theorem remove_cases (hm : t.Models st) (k : Bytes) :
    st k = none ∧ t.remove k = some (t, -1) ∨
      ∃ t₁ a data, data.key = k ∧ st k = some data.val ∧ t.remove k = t₁.removed 0 ∧
        t₁.Models (Function.update st k none) ∧ t.Unlinked t₁ a data := by
  obtain ⟨hb, rows, hT, hH⟩ := hm
  have hchain := hT.chain_of k
  cases hslot : t.kvpairs (bucketOf k t.size) with
  | none =>
      rw [hslot] at hchain
      refine .inl ⟨hH.isNone ?_, ?_⟩
      · rw [show rows (bucketOf k t.size) = [] from hchain.of_none]
        exact fun e he => absurd he List.not_mem_nil
      · unfold remove
        dsimp only
        rw [hslot]
  | some cur =>
      rw [hslot] at hchain
      obtain ⟨next, d, row, hrow, hview, hrest⟩ := hchain.of_some
      obtain ⟨data, hnode, rfl⟩ := exists_of_view hview
      by_cases hk : k = data.key
      · subst hk
        obtain ⟨t₁, hrun, hs, hunlinked⟩ := remove_first hb hT hH hslot hnode hrow hrest
        refine .inr ⟨t₁, cur, data, rfl, ?_, hrun, hs, hunlinked⟩
        exact (hH data.key data.val).mpr ⟨cur, by rw [hrow]; exact List.mem_cons_self⟩
      · rw [hrow] at hchain
        have hfuel : row.length < t.fresh := by
          have hle := hT.length_le_of k
          rw [hrow] at hle
          exact hle
        rcases seekPred_of_linked (k := k) hchain hfuel with
          ⟨l, a, d, b, v, r, hsplit, hfound⟩ | ⟨hnone, hget⟩
        · rw [hsplit] at hrow
          obtain ⟨t₁, data, hrun, hs, hkv, hunlinked⟩ :=
            remove_behind hb hT hH hslot hnode hk hfound hrow
          obtain ⟨hkey, hval⟩ := Prod.mk.inj hkv
          refine .inr ⟨t₁, b, data, hkey, ?_, hrun, hs, hunlinked⟩
          rw [hval]
          exact (hH k v).mpr ⟨b, by rw [hrow]; simp⟩
        · refine .inl ⟨hH.isNone ?_, ?_⟩
          · rw [hrow]
            intro e he
            rcases List.mem_cons.mp he with rfl | he
            · exact fun heq => hk heq.symm
            · exact hnone e he
          · unfold remove
            dsimp only
            rw [hslot]
            dsimp only
            rw [hnode, Option.bind_some, if_neg hk, hget]
            rfl

theorem remove_models (hm : t.Models st) (k : Bytes) :
    ∃ s, t.remove k = some s ∧ s.1.Models (Function.update st k none) ∧
      s.2 = (if (st k).isSome then 0 else -1) ∧ s.1.dbfile.isSome = t.dbfile.isSome := by
  rcases remove_cases hm k with ⟨hst, hrun⟩ | ⟨t₁, a, data, -, hst, hrun, hm₁, hunlinked⟩
  · refine ⟨(t, -1), hrun, ?_, by rw [hst]; rfl, rfl⟩
    rwa [← hst, Function.update_eq_self]
  · obtain ⟨s, hremoved, hs, hret, hopen⟩ := removed_models hm₁
    exact ⟨s, hrun.trans hremoved, hs, by rw [hret, hst]; rfl, hopen.trans hunlinked.isSome⟩

/-! ### Growing -/

/-- Pairs dealt out one by one, each to the front of its bucket. -/
def deal (ns : Nat) (rows : Nat → List Entry) (es : List Entry) : Nat → List Entry :=
  es.foldl (fun rows e => Function.update rows (bucketOf e.2.1 ns)
    (e :: rows (bucketOf e.2.1 ns))) rows

theorem deal_perm (ns : Nat) (rows : Nat → List Entry) (es : List Entry) (b : Nat) :
    (deal ns rows es b).Perm (es.filter (bucketOf ·.2.1 ns = b) ++ rows b) := by
  induction es generalizing rows with
  | nil => exact .refl _
  | cons e es ih =>
      refine (ih _).trans ?_
      dsimp only
      by_cases hb : bucketOf e.2.1 ns = b
      · subst hb
        rw [Function.update_self, List.filter_cons_of_pos (by simp), List.cons_append]
        exact List.perm_middle
      · rw [Function.update_of_ne (Ne.symm hb), List.filter_cons_of_neg (by simpa using hb)]

theorem mem_deal {ns b : Nat} :
    e ∈ deal ns (fun _ => []) es b ↔ e ∈ es ∧ bucketOf e.2.1 ns = b := by
  rw [(deal_perm ns _ es b).mem_iff]
  simp

/-- Relinking a chain takes its pairs over, one after the other, and leaves all others alone. -/
theorem relink_of_linked {ns : Nat} {new : Nat → Option Nat} (hs : Linked (pairs h) p es)
    (hfuel : es.length ≤ fuel) (hnew : ∀ b, Linked (pairs h) (new b) (rows b))
    (hdisj : ∀ e ∈ es, ∀ b, ∀ f ∈ rows b, f.1 ≠ e.1) :
    ∃ h' new', relink ns fuel p (h, new) = some (h', new') ∧
      (∀ b, Linked (pairs h') (new' b) (deal ns rows es b)) ∧
      ∀ a, (∀ e ∈ es, e.1 ≠ a) → pairs h' a = pairs h a := by
  induction es generalizing p fuel h new rows with
  | nil =>
      cases hs
      exact ⟨h, new, by cases fuel <;> rfl, hnew, fun _ _ => rfl⟩
  | cons e es ih =>
      obtain ⟨a, d⟩ := e
      have hnodup := (Linked.notMem_of_nodup (show Linked _ _ ([] ++ _ :: _) from hs)).2
      obtain ⟨rfl, next, data, hnode, rfl, hrest⟩ := head_of_linked hs
      cases fuel with
      | zero => cases hfuel
      | succ fuel =>
          generalize hpos : bucketOf data.key ns = pos
          have hview : pairs (Function.update h a (some ⟨new pos, data⟩)) =
              Function.update (pairs h) a (some ⟨new pos, Pair.kv data⟩) := view_update ..
          have hframe : ∀ q fs, Linked (pairs h) q fs → (∀ f ∈ fs, f.1 ≠ a) →
              Linked (pairs (Function.update h a (some ⟨new pos, data⟩))) q fs := by
            intro q fs hq hfs
            rw [hview]
            exact hq.frame fun f hf => Function.update_of_ne (hfs f hf) ..
          have hold : ∀ b, ∀ f ∈ rows b, f.1 ≠ a := hdisj _ List.mem_cons_self
          obtain ⟨h', new', hrun, hlinked, hagree⟩ := @ih
            (Function.update h a (some ⟨new pos, data⟩)) next fuel
            (Function.update rows pos ((a, Pair.kv data) :: rows pos))
            (Function.update new pos (some a)) (hframe _ _ hrest hnodup) (Nat.le_of_succ_le_succ hfuel)
            (by
              intro b
              by_cases hb : b = pos
              · subst hb
                rw [Function.update_self, Function.update_self]
                refine ⟨rfl, new b, ?_, hframe _ _ (hnew b) (hold b)⟩
                rw [hview, Function.update_self]
              · rw [Function.update_of_ne hb, Function.update_of_ne hb]
                exact hframe _ _ (hnew b) (hold b))
            (by
              intro f hf b g hg
              by_cases hb : b = pos
              · subst hb
                rw [Function.update_self] at hg
                rcases List.mem_cons.mp hg with rfl | hg
                · exact (hnodup f hf).symm
                · exact hdisj f (List.mem_cons_of_mem _ hf) b g hg
              · rw [Function.update_of_ne hb] at hg
                exact hdisj f (List.mem_cons_of_mem _ hf) b g hg)
          refine ⟨h', new', ?_, ?_, ?_⟩
          · rw [relink]
            dsimp only
            rw [hnode]
            dsimp only
            rw [hpos]
            exact hrun
          · rw [deal, List.foldl_cons, show bucketOf (a, Pair.kv data).2.1 ns = pos from hpos]
            exact hlinked
          · intro c hc
            rw [hagree c fun e he => hc e (List.mem_cons_of_mem _ he), hview,
              Function.update_of_ne (hc _ List.mem_cons_self).symm]

theorem mem_deal_cases {ns b : Nat} (he : e ∈ deal ns rows es b) : e ∈ es ∨ e ∈ rows b := by
  rcases List.mem_append.mp ((deal_perm ns rows es b).mem_iff.mp he) with he | he
  · exact .inl (List.mem_of_mem_filter he)
  · exact .inr he

theorem relinkAll_of_linked {ns : Nat} {bs : List Nat} {old new : Nat → Option Nat}
    {src : Nat → List Entry} (hs : ∀ b ∈ bs, Linked (pairs h) (old b) (src b))
    (hfuel : ∀ b ∈ bs, (src b).length ≤ fuel)
    (hpairwise : bs.Pairwise fun b c => ∀ e ∈ src b, ∀ f ∈ src c, e.1 ≠ f.1)
    (hnew : ∀ b, Linked (pairs h) (new b) (rows b))
    (hdisj : ∀ b ∈ bs, ∀ e ∈ src b, ∀ c, ∀ f ∈ rows c, f.1 ≠ e.1) :
    ∃ h' new', bs.foldlM (fun s i => relink ns fuel (old i) s) (h, new) = some (h', new') ∧
      ∀ c, Linked (pairs h') (new' c) (deal ns rows (bs.flatMap src) c) := by
  induction bs generalizing h new rows with
  | nil => exact ⟨h, new, rfl, hnew⟩
  | cons b bs ih =>
      obtain ⟨hhead, htail⟩ := List.pairwise_cons.mp hpairwise
      obtain ⟨h₁, new₁, hrun₁, hlinked₁, hagree₁⟩ := relink_of_linked
        (hs b List.mem_cons_self) (hfuel b List.mem_cons_self) hnew (hdisj b List.mem_cons_self)
      obtain ⟨h₂, new₂, hrun₂, hlinked₂⟩ := @ih h₁ (deal ns rows (src b)) new₁
        (fun c hc => (hs c (List.mem_cons_of_mem _ hc)).frame fun f hf =>
          hagree₁ f.1 fun e he => hhead c hc e he f hf)
        (fun c hc => hfuel c (List.mem_cons_of_mem _ hc)) htail hlinked₁
        (by
          intro c hc e he c' f hf
          rcases mem_deal_cases hf with hf | hf
          · exact hhead c hc f hf e he
          · exact hdisj c (List.mem_cons_of_mem _ hc) e he c' f hf)
      refine ⟨h₂, new₂, ?_, ?_⟩
      · rw [List.foldlM_cons, hrun₁]
        exact hrun₂
      · intro c
        rw [List.flatMap_cons, deal, List.foldl_append]
        exact hlinked₂ c

theorem Table.mem_all (hT : t.Table rows) :
    e ∈ Table.all t rows ↔ e ∈ rows (bucketOf e.2.1 t.size) := by
  constructor
  · intro he
    obtain ⟨b, hb, he⟩ := List.mem_flatMap.mp he
    rwa [hT.bucket b (List.mem_range.mp hb) e he]
  · intro he
    exact List.mem_flatMap.mpr ⟨_, List.mem_range.mpr (hT.bucketOf_lt e.2.1), he⟩

theorem Table.nodup_all (hT : t.Table rows) : ((Table.all t rows).map fun e => e.2.1).Nodup := by
  rw [Table.all, List.map_flatMap, List.nodup_flatMap]
  refine ⟨fun b hb => hT.keys b (List.mem_range.mp hb), ?_⟩
  refine List.Pairwise.imp_of_mem ?_ (List.nodup_range (n := t.size))
  intro b c hb hc hne k hk hk'
  obtain ⟨e, he, rfl⟩ := List.mem_map.mp hk
  obtain ⟨f, hf, heq⟩ := List.mem_map.mp hk'
  apply hne
  rw [← hT.bucket b (List.mem_range.mp hb) e he, ← hT.bucket c (List.mem_range.mp hc) f hf, heq]

/-- **Growing keeps every pair.** Nothing is lost, doubled or left in the wrong bucket. -/
theorem resize_models (hm : t.Models st) {ns : Nat} (hns : 0 < ns) (hlt : ns < 2 ^ 31) :
    ∃ t', t.resize ns = some t' ∧ t'.Models st ∧ t'.dbfile.isSome = t.dbfile.isSome := by
  obtain ⟨hb, rows, hT, hH⟩ := hm
  obtain ⟨h, new, hrun, hlinked⟩ := @relinkAll_of_linked t.heap _ (fun _ => []) ns
    (List.range t.size) t.kvpairs (fun _ => none) rows
    (fun b hb => hT.chain b (List.mem_range.mp hb)) (fun b hb => hT.length_le (List.mem_range.mp hb))
    (by
      refine List.Pairwise.imp_of_mem ?_ (List.nodup_range (n := t.size))
      intro b c hb hc hne e he f hf heq
      exact hne (hT.bucket_unique (List.mem_range.mp hb) (List.mem_range.mp hc) he hf heq))
    (fun _ => rfl) (fun _ _ _ _ _ _ hf => absurd hf List.not_mem_nil)
  refine ⟨{ t with size := ns, heap := h, kvpairs := new, numEl := 0 }, ?_, ⟨hb, ?_⟩, rfl⟩
  · rw [resize, if_pos hlt, hrun]
    rfl
  refine ⟨deal ns (fun _ => []) (Table.all t rows), ⟨hns, fun b _ => hlinked b, ?_, ?_, ?_⟩, ?_⟩
  · intro b _ e he
    exact (mem_deal.mp he).2
  · intro b _
    have hperm := (deal_perm ns (fun _ => []) (Table.all t rows) b).map fun e => e.2.1
    rw [List.append_nil] at hperm
    exact hperm.nodup_iff.mpr (hT.nodup_all.sublist (List.filter_sublist.map _))
  · intro b _ e he
    obtain ⟨c, hc, he⟩ := List.mem_flatMap.mp (mem_deal.mp he).1
    exact hT.fresh c (List.mem_range.mp hc) e he
  · intro k v
    rw [hH k v]
    constructor <;> rintro ⟨a, hmem⟩ <;> refine ⟨a, ?_⟩
    · exact mem_deal.mpr ⟨hT.mem_all.mpr hmem, rfl⟩
    · exact hT.mem_all.mp (mem_deal.mp hmem).1

theorem put_models (hm : t.Models st) {grow : Bool} (hfits : grow = true → t.size * 2 < 2 ^ 31)
    (k v : Bytes) :
    ∃ s, t.put grow k v = some s ∧ s.1.Models (Function.update st k (some v)) ∧ s.2 = 0 ∧
      s.1.dbfile.isSome = t.dbfile.isSome := by
  unfold put
  cases grow with
  | false => exact insert_models hm k v
  | true =>
      have hpos : 0 < t.size * 2 := by
        obtain ⟨-, rows, hT, -⟩ := hm
        exact Nat.mul_pos hT.pos (by decide)
      obtain ⟨t₁, hresize, hm₁, hopen₁⟩ := resize_models hm hpos (hfits rfl)
      obtain ⟨s, hinsert, hs, hret, hopen⟩ := insert_models hm₁ k v
      rw [if_pos rfl, hresize]
      exact ⟨s, hinsert, hs, hret, hopen.trans hopen₁⟩

/-! ### The number of buckets -/

/-- What writing to the file leaves alone. -/
structure SameCounts (t t' : NoVoHT) : Prop where
  size : t'.size = t.size
  numEl : t'.numEl = t.numEl

theorem write_sameCounts {a : Nat} {s : NoVoHT × Int} (h : t.write a = some s) :
    t.SameCounts s.1 := by
  unfold write at h
  split at h
  · cases h
    exact ⟨rfl, rfl⟩
  · obtain ⟨node, -, rfl⟩ := Option.map_eq_some_iff.mp h
    exact ⟨rfl, rfl⟩

theorem mark_sameCounts (t : NoVoHT) (position : Nat) : t.SameCounts (t.mark position).1 := by
  unfold mark
  split
  · exact ⟨rfl, rfl⟩
  · exact ⟨rfl, rfl⟩

theorem removed_sameCounts {ret : Int} {s : NoVoHT × Int} (h : t.removed ret = some s) :
    t.SameCounts s.1 := by
  unfold removed at h
  split at h
  · obtain ⟨w, hw, rfl⟩ := Option.map_eq_some_iff.mp h
    unfold writeFile at hw
    split at hw
    · cases hw
      exact ⟨rfl, rfl⟩
    · obtain ⟨x, -, rfl⟩ := Option.map_eq_some_iff.mp hw
      exact ⟨rfl, rfl⟩
  · cases h
    exact ⟨rfl, rfl⟩

theorem insert_size {v : Bytes} {s : NoVoHT × Int} (h : t.insert k v = some s) :
    s.1.size = t.size := by
  unfold insert at h
  dsimp only at h
  split at h
  · exact (write_sameCounts h).size
  · obtain ⟨found, -, h⟩ := Option.bind_eq_some_iff.mp h
    split at h
    · obtain ⟨node, -, hwrite⟩ := Option.bind_eq_some_iff.mp h
      exact (write_sameCounts hwrite).size.trans (mark_sameCounts _ _).size
    · obtain ⟨node, -, hwrite⟩ := Option.bind_eq_some_iff.mp h
      exact (write_sameCounts hwrite).size

theorem remove_size {s : NoVoHT × Int} (h : t.remove k = some s) : s.1.size = t.size := by
  unfold remove at h
  dsimp only at h
  split at h
  · cases h
    rfl
  · obtain ⟨node, -, h⟩ := Option.bind_eq_some_iff.mp h
    split at h
    · exact (removed_sameCounts h).size.trans (mark_sameCounts _ _).size
    · obtain ⟨found, -, h⟩ := Option.bind_eq_some_iff.mp h
      split at h
      · cases h
        rfl
      · obtain ⟨pred, -, h⟩ := Option.bind_eq_some_iff.mp h
        obtain ⟨node, -, h⟩ := Option.bind_eq_some_iff.mp h
        exact (removed_sameCounts h).size.trans (mark_sameCounts _ _).size

theorem resize_cases {t' : NoVoHT} {ns : Nat} (h : t.resize ns = some t') :
    ns < 2 ^ 31 ∧ ∃ s, (List.range t.size).foldlM (fun s i => relink ns t.fresh (t.kvpairs i) s)
      (t.heap, fun _ => none) = some s ∧
        { t with size := ns, heap := s.1, kvpairs := s.2, numEl := 0 } = t' := by
  unfold resize at h
  split at h
  · next hlt => exact ⟨hlt, Option.map_eq_some_iff.mp h⟩
  · cases h

/-- A `put` that grows the table doubles it, and an `int` has room for that. -/
theorem put_size {grow : Bool} {v : Bytes} {s : NoVoHT × Int} (h : t.put grow k v = some s) :
    (grow = true → t.size * 2 < 2 ^ 31) ∧ s.1.size = t.size * 2 ^ grow.toNat := by
  obtain ⟨t₁, hresize, hinsert⟩ := Option.bind_eq_some_iff.mp h
  rw [insert_size hinsert]
  cases grow with
  | false =>
      cases hresize
      exact ⟨nofun, (Nat.mul_one _).symm⟩
  | true =>
      obtain ⟨hlt, x, -, rfl⟩ := resize_cases hresize
      exact ⟨fun _ => hlt, rfl⟩

/-! ### The server's use of it -/

/-- `HB_insert`, on the table. -/
def hbInsert (grow : Bool) (t : NoVoHT) (p : Package) : Option (NoVoHT × Int) :=
  (t.put grow p.virtualpath p.serialize).map fun s => (s.1, if s.2 ≠ 0 then -2 else 0)

/-- `HB_lookup`, on the table. -/
def hbLookup (t : NoVoHT) (p : Package) : Option Bytes :=
  (t.get p.virtualpath).map fun v => v.getD (cstr "Empty")

/-- `HB_remove`, on the table. -/
def hbRemove (t : NoVoHT) (p : Package) : Option (NoVoHT × Int) :=
  (t.remove p.virtualpath).map fun s => (s.1, if s.2 ≠ 0 then -2 else 0)

theorem hbInsert_models (hm : t.Models st) {grow : Bool} (hfits : grow = true → t.size * 2 < 2 ^ 31)
    (p : Package) : ∃ s, t.hbInsert grow p = some s ∧ s.1.Models (FusionFS.hbInsert st p).1 ∧
      s.2 = (FusionFS.hbInsert st p).2 := by
  obtain ⟨s, hrun, hs, hret, -⟩ := put_models hm hfits p.virtualpath p.serialize
  refine ⟨(s.1, 0), ?_, hs, rfl⟩
  rw [hbInsert, hrun, Option.map_some, hret]
  rfl

theorem hbLookup_models (hm : t.Models st) {p : Package} (hk : p.virtualpath ≠ []) :
    t.hbLookup p = some (FusionFS.hbLookup st p) := by
  rw [hbLookup, get_models hm hk]
  rfl

theorem hbRemove_models (hm : t.Models st) (p : Package) : ∃ s,
    t.hbRemove p = some s ∧ s.1.Models (FusionFS.hbRemove st p).1 ∧
      s.2 = (FusionFS.hbRemove st p).2 := by
  obtain ⟨s, hrun, hs, hret, -⟩ := remove_models hm p.virtualpath
  refine ⟨(s.1, (FusionFS.hbRemove st p).2), ?_, hs, rfl⟩
  rw [hbRemove, hrun, Option.map_some, hret, FusionFS.hbRemove]
  by_cases hsome : (st p.virtualpath).isSome
  · simp [hsome]
  · simp [hsome]

/-! ### Calls on a table -/

/-- A call. A `put` that grows the table does so first. -/
inductive Request where
  | put (grow : Bool) (k v : Bytes)
  | get (k : Bytes)
  | remove (k : Bytes)
  deriving DecidableEq

def Request.key : Request → Bytes
  | .put _ k _ => k
  | .get k => k
  | .remove k => k

def Request.grows : Request → Bool
  | .put grow _ _ => grow
  | _ => false

/-- The number of buckets that a table of `size` has after these calls. -/
def sizeAfter (size : Nat) (rs : List Request) : Nat := size * 2 ^ rs.countP Request.grows

inductive Reply where
  | status (ret : Int)
  | value (v : Option Bytes)
  deriving DecidableEq

def answer (t : NoVoHT) : Request → Option (NoVoHT × Reply)
  | .put grow k v => (t.put grow k v).map fun s => (s.1, .status s.2)
  | .get k => (t.get k).map fun v => (t, .value v)
  | .remove k => (t.remove k).map fun s => (s.1, .status s.2)

def answerAll : NoVoHT → List Request → Option (NoVoHT × List Reply)
  | t, [] => some (t, [])
  | t, r :: rs => (t.answer r).bind fun s => (answerAll s.1 rs).map fun u => (u.1, s.2 :: u.2)

/-- What a finite map answers. -/
def mapAnswer (st : Store) : Request → Store × Reply
  | .put _ k v => (Function.update st k (some v), .status 0)
  | .get k => (st, .value (st k))
  | .remove k => (Function.update st k none, .status (if (st k).isSome then 0 else -1))

def mapAnswerAll : Store → List Request → Store × List Reply
  | st, [] => (st, [])
  | st, r :: rs =>
      ((mapAnswerAll (mapAnswer st r).1 rs).1, (mapAnswer st r).2 :: (mapAnswerAll (mapAnswer st r).1 rs).2)

theorem sizeAfter_cons (size : Nat) (r : Request) (rs : List Request) :
    sizeAfter size (r :: rs) = sizeAfter (size * 2 ^ r.grows.toNat) rs := by
  rw [sizeAfter, sizeAfter, List.countP_cons, Nat.pow_add, Nat.mul_comm (2 ^ _), ← Nat.mul_assoc]
  cases r.grows <;> rfl

theorem le_sizeAfter (size : Nat) (rs : List Request) : size ≤ sizeAfter size rs :=
  Nat.le_mul_of_pos_right _ (Nat.two_pow_pos _)

theorem answer_size {r : Request} {s : NoVoHT × Reply} (h : t.answer r = some s) :
    (r.grows = true → t.size * 2 < 2 ^ 31) ∧ s.1.size = t.size * 2 ^ r.grows.toNat := by
  cases r with
  | put grow k v =>
      obtain ⟨u, hput, rfl⟩ := Option.map_eq_some_iff.mp h
      exact put_size hput
  | get k =>
      obtain ⟨u, -, rfl⟩ := Option.map_eq_some_iff.mp h
      exact ⟨nofun, (Nat.mul_one _).symm⟩
  | remove k =>
      obtain ⟨u, hremove, rfl⟩ := Option.map_eq_some_iff.mp h
      exact ⟨nofun, (remove_size hremove).trans (Nat.mul_one _).symm⟩

theorem answer_models (hm : t.Models st) {r : Request} (hk : r.key ≠ [])
    (hfits : r.grows = true → t.size * 2 < 2 ^ 31) :
    ∃ s, t.answer r = some s ∧ s.1.Models (mapAnswer st r).1 ∧ s.2 = (mapAnswer st r).2 ∧
      s.1.dbfile.isSome = t.dbfile.isSome := by
  cases r with
  | put grow k v =>
      have hgrow : grow = true → t.size * 2 < 2 ^ 31 := hfits
      obtain ⟨s, hrun, hs, hret, hopen⟩ := put_models hm hgrow k v
      exact ⟨(s.1, .status s.2), by rw [answer, hrun]; rfl, hs, by rw [hret]; rfl, hopen⟩
  | get k =>
      have hget := get_models hm (show k ≠ [] from hk)
      exact ⟨(t, .value (st k)), by rw [answer, hget]; rfl, hm, rfl, rfl⟩
  | remove k =>
      obtain ⟨s, hrun, hs, hret, hopen⟩ := remove_models hm k
      exact ⟨(s.1, .status s.2), by rw [answer, hrun]; rfl, hs, by rw [hret]; rfl, hopen⟩

theorem answerAll_models (hm : t.Models st) {rs : List Request} (hk : ∀ r ∈ rs, r.key ≠ [])
    (hfits : sizeAfter t.size rs < 2 ^ 31) :
    ∃ t', t.answerAll rs = some (t', (mapAnswerAll st rs).2) ∧ t'.Models (mapAnswerAll st rs).1 ∧
      t'.dbfile.isSome = t.dbfile.isSome := by
  induction rs generalizing t st with
  | nil => exact ⟨t, rfl, hm, rfl⟩
  | cons r rs ih =>
      rw [sizeAfter_cons] at hfits
      obtain ⟨s, hrun, hs, hret, hopen⟩ := answer_models hm (hk r List.mem_cons_self) (by
        intro hgrows
        have hle := le_sizeAfter (t.size * 2 ^ r.grows.toNat) rs
        rw [hgrows] at hle hfits
        exact hle.trans_lt hfits)
      obtain ⟨t', hrun', ht', hopen'⟩ := ih hs (fun r hr => hk r (List.mem_cons_of_mem _ hr)) (by
        rw [(answer_size hrun).2]
        exact hfits)
      refine ⟨t', ?_, ht', hopen'.trans hopen⟩
      rw [answerAll, hrun, Option.bind_some, hrun', hret]
      rfl

/-- A table answers only as long as an `int` has room for its size. -/
theorem sizeAfter_lt {rs : List Request} {s : NoVoHT × List Reply} (hlt : t.size < 2 ^ 31)
    (h : t.answerAll rs = some s) : sizeAfter t.size rs < 2 ^ 31 := by
  induction rs generalizing t s with
  | nil => exact (Nat.mul_one _).trans_lt hlt
  | cons r rs ih =>
      obtain ⟨u, hanswer, hrest⟩ := Option.bind_eq_some_iff.mp h
      obtain ⟨w, hrest, -⟩ := Option.map_eq_some_iff.mp hrest
      obtain ⟨hfits, hsize⟩ := answer_size hanswer
      rw [sizeAfter_cons, ← hsize]
      refine ih ?_ hrest
      rw [hsize]
      cases hgrows : r.grows with
      | false => rwa [Bool.toNat_false, Nat.pow_zero, Nat.mul_one]
      | true => exact hfits hgrows

theorem models_empty (hb : t.Backed) (hpos : 0 < t.size) (hnone : ∀ b, t.kvpairs b = none) :
    t.Models fun _ => none := by
  refine ⟨hb, fun _ => [], ⟨hpos, fun b _ => hnone b, ?_, ?_, ?_⟩, ?_⟩
  · exact fun _ _ _ he => absurd he List.not_mem_nil
  · exact fun _ _ => List.nodup_nil
  · exact fun _ _ _ he => absurd he List.not_mem_nil
  · exact fun k v => ⟨nofun, fun ⟨_, hmem⟩ => absurd hmem List.not_mem_nil⟩

/-- **A table in memory refines a finite map** exactly as long as an `int` has room for the number of
its buckets: every sequence of calls on it returns what the map returns, and at its end each pair is
in the bucket of its key, the chains end, and no key is there twice. -/
theorem novoht_refines_map (full : Int → Nat → Bool) (disk : Bytes) (s : Nat) (hs : 0 < s)
    (hint : s < 2 ^ 31) (m : Int) (rs : List Request) (hkeys : ∀ r ∈ rs, r.key ≠ []) :
    (∃ t₀ t, construct full [] disk s m = some t₀ ∧
      t₀.answerAll rs = some (t, (mapAnswerAll (fun _ => none) rs).2) ∧
      ∃ rows, t.Table rows ∧ ((Table.all t rows).map fun e => e.2.1).Nodup) ↔
        sizeAfter s rs < 2 ^ 31 := by
  obtain ⟨t₀, hconstruct, hsize, hm⟩ : ∃ t₀, construct full [] disk s m = some t₀ ∧ t₀.size = s ∧
      t₀.Models fun _ => none := ⟨_, rfl, rfl, models_empty (fun _ => rfl) hs fun _ => rfl⟩
  constructor
  · rintro ⟨t₁, t, hconstruct₁, hrun, -⟩
    obtain rfl := Option.some.inj (hconstruct.symm.trans hconstruct₁)
    rw [← hsize] at hint ⊢
    exact sizeAfter_lt hint hrun
  · intro hfits
    rw [← hsize] at hfits
    obtain ⟨t, hrun, ⟨-, rows, hT, -⟩, -⟩ := answerAll_models hm hkeys hfits
    exact ⟨t₀, t, hconstruct, hrun, rows, hT, hT.nodup_all⟩

/-- Three keys in one bucket, one of them updated and one removed, with the table growing between. -/
theorem novoht_refines_map_collisions :
    ∃ t₀ t, construct (fun _ _ => false) [] [] 1 10 = some t₀ ∧
      t₀.answerAll [.put false (cstr "a") (cstr "1"), .put false (cstr "b") (cstr "2"),
        .put false (cstr "c") (cstr "3"), .put true (cstr "b") (cstr "4"), .remove (cstr "a"),
        .get (cstr "b"), .get (cstr "a"), .remove (cstr "a")] =
        some (t, [.status 0, .status 0, .status 0, .status 0, .status 0, .value (some (cstr "4")),
          .value none, .status (-1)]) ∧
      ∃ rows, t.Table rows ∧ ((Table.all t rows).map fun e => e.2.1).Nodup :=
  (novoht_refines_map (fun _ _ => false) [] 1 (by decide) (by decide) 10
    [.put false (cstr "a") (cstr "1"), .put false (cstr "b") (cstr "2"),
      .put false (cstr "c") (cstr "3"), .put true (cstr "b") (cstr "4"), .remove (cstr "a"),
      .get (cstr "b"), .get (cstr "a"), .remove (cstr "a")] (by decide)).mpr (by decide)

/-- A table of 2 ^ 30 buckets that grows: the call returns nothing. -/
theorem not_novoht_refines_map : ∃ t₀, construct (fun _ _ => false) [] [] (2 ^ 30) 1000 = some t₀ ∧
    t₀.answerAll [.put false (cstr "a") (cstr "1"), .put true (cstr "b") (cstr "2")] = none := by
  refine ⟨_, rfl, ?_⟩
  by_contra hsome
  obtain ⟨s, hs⟩ := Option.ne_none_iff_exists'.mp hsome
  have hlt := sizeAfter_lt (show 2 ^ 30 < 2 ^ 31 by decide) hs
  exact absurd hlt (by decide)

end NoVoHT

end FusionFS
