import FusionFS.ElementCount
import FusionFS.Lib.RecordLog
import FusionFS.Persist

/-!
# The log and the table

Every pair of a table with a file knows where its record begins. The file is read as it is on opening,
two words a record and without those crossed out, and compared with the pairs in the buckets.
-/

namespace FusionFS

open Chained Transition RecordLog

/-- A pair as the file has it. -/
def Pair.located (p : Pair) : Nat × Bytes × Bytes := (p.pos, p.key, p.val)

namespace NoVoHT

/-- The loop of `readFile` less its `put`: the records that are not crossed out, and where they are. -/
def scanLoop : Nat → Stream → Option (List (Nat × Bytes × Bytes))
  | 0, _ => none
  | fuel + 1, f =>
      match readTabString 300 [] f with
      | (none, _) => some []
      | (some s, g) =>
          let key := cString s
          match readTabString 300 [] g with
          | (none, _) => some []
          | (some v, g) => (scanLoop fuel g).map fun es =>
              if key.head? = some tilde then es else (f.pos, key, cString v) :: es

def scan (content : Bytes) : Option (List (Nat × Bytes × Bytes)) :=
  scanLoop (content.length + 2) ⟨content, 0⟩

/-- The pairs of one chain. -/
def walkChain (h : Heap Pair) : Nat → Option Nat → Option (List Pair)
  | _, none => some []
  | 0, some _ => none
  | fuel + 1, some cur => do
      let node ← h cur
      let ps ← walkChain h fuel node.next
      some (node.data :: ps)

/-- The pairs in the buckets. -/
def walk (t : NoVoHT) : Option (List Pair) :=
  (List.range t.size).foldlM (fun ps i => (walkChain t.heap t.fresh (t.kvpairs i)).map (ps ++ ·)) []

/-- The records found are those of the pairs, where the pairs say, and crossing out one of them takes
no other with it. -/
structure Agreement (f : Stream) (found : List (Nat × Bytes × Bytes)) (ps : List Pair) : Prop where
  once : (ps.map Pair.key).Nodup
  perm : found.Perm (ps.map Pair.located)
  mark : ∀ p ∈ ps, ∃ left, scan ({ f with pos := p.pos }.puts [tilde]).content = some left ∧
    found.Perm (p.located :: left)

def Agrees (t : NoVoHT) : Prop :=
  ∃ f found ps, t.dbfile = some f ∧ scan f.content = some found ∧ t.walk = some ps ∧
    Agreement f found ps

/-- A call. `full` is the test that makes `put` grow the table. -/
def call (full : Int → Nat → Bool) (t : NoVoHT) : Edit → Option NoVoHT
  | .put k v => (t.put (full t.numEl t.size) k v).map Prod.fst
  | .remove k => (t.remove k).map Prod.fst

/-- What a record can keep, but for zero bytes. -/
def Edit.Legal : Edit → Prop
  | .put k v => k ≠ [] ∧ v ≠ [] ∧ Text k ∧ Text v ∧ k.head? ≠ some tilde
  | .remove _ => True

instance (e : Edit) : Decidable e.Legal := by
  cases e <;> unfold Edit.Legal <;> infer_instance

def Edit.Zerofree : Edit → Prop
  | .put k v => 0 ∉ k ∧ 0 ∉ v
  | .remove _ => True

/-! ### Reading the log -/

def line (r : Bytes × Bytes) : Bytes := r.1 ++ [tab] ++ r.2 ++ [tab]

/-- A record that is not crossed out. -/
def kept (r : Bytes × Bytes) : Bool := decide (r.1.head? ≠ some tilde)

/-- A record that reads as it was written, crossed out or not. -/
structure Readable (r : Bytes × Bytes) : Prop where
  key_ne_nil : r.1 ≠ []
  val_ne_nil : r.2 ≠ []
  key : Text r.1
  val : Text r.2
  zero_notMem_key : 0 ∉ r.1
  zero_notMem_val : 0 ∉ r.2

variable {t t₁ : NoVoHT} {rows : Nat → List Entry} {st : Store} {f : Stream} {k v w : Bytes}
  {log : List (Bytes × Bytes)} {r : Bytes × Bytes} {a o : Nat}

theorem record_eq (hk : 0 ∉ k) (hv : 0 ∉ v) : record k v = line (k, v) := by
  rw [record, line, cString_eq_self.mpr hk, cString_eq_self.mpr hv]

theorem line_ne_nil (r : Bytes × Bytes) : line r ≠ [] := by simp [line]

theorem length_line (r : Bytes × Bytes) : (line r).length = (r.1.length + 1) + (r.2.length + 1) := by
  simp [line]
  omega

theorem length_le_length_lines (log : List (Bytes × Bytes)) :
    log.length ≤ (log.flatMap line).length := by
  induction log with
  | nil => exact Nat.zero_le _
  | cons r log ih =>
      rw [List.flatMap_cons, List.length_append, List.length_cons, length_line]
      omega

theorem scanLoop_of_lines {fuel : Nat} (hlog : ∀ r ∈ log, Readable r)
    (hdrop : f.content.drop f.pos = log.flatMap line) (hpos : f.pos ≤ f.content.length)
    (hfuel : log.length < fuel) :
    scanLoop fuel f = some ((offsets line f.pos log).filter fun e => kept e.2) := by
  induction log generalizing f fuel with
  | nil =>
      obtain ⟨fuel, rfl⟩ : ∃ n, fuel = n + 1 := ⟨fuel - 1, by simp at hfuel; omega⟩
      have hend : f.AtEnd := Nat.le_antisymm hpos (List.drop_eq_nil_iff.mp hdrop)
      rw [scanLoop, readTabString_of_atEnd hend]
      rfl
  | cons r log ih =>
      obtain ⟨fuel, rfl⟩ : ∃ n, fuel = n + 1 := ⟨fuel - 1, by simp at hfuel; omega⟩
      have hr := hlog r List.mem_cons_self
      have hkey : f.content.drop f.pos = r.1 ++ tab :: (r.2 ++ tab :: log.flatMap line) := by
        rw [hdrop]
        simp [line]
      have hval : f.content.drop (f.pos + (r.1.length + 1)) = r.2 ++ tab :: log.flatMap line := by
        rw [← List.drop_drop, hkey, drop_word]
      have hrest : f.content.drop (f.pos + (line r).length) = log.flatMap line := by
        rw [length_line, ← Nat.add_assoc, ← List.drop_drop, hval, drop_word]
      have hreadKey : readTabString 300 [] f =
          (some r.1, ⟨f.content, f.pos + (r.1.length + 1)⟩) :=
        readTabString_eq hkey hr.key.1 hr.key.2.1 hr.key.2.2
      have hreadVal : readTabString 300 [] ⟨f.content, f.pos + (r.1.length + 1)⟩ =
          (some r.2, ⟨f.content, f.pos + (line r).length⟩) := by
        have hlen : f.pos + (line r).length = f.pos + (r.1.length + 1) + (r.2.length + 1) := by
          rw [length_line, ← Nat.add_assoc f.pos (r.1.length + 1)]
        rw [hlen]
        exact @readTabString_eq ⟨f.content, f.pos + (r.1.length + 1)⟩ r.2 [] _ 300 hval hr.val.1 hr.val.2.1 hr.val.2.2
      have hle : f.pos + (line r).length ≤ f.content.length := by
        have hlen := congrArg List.length hdrop
        rw [List.length_drop, List.flatMap_cons, List.length_append] at hlen
        have hpos' := List.length_pos_iff.mpr (line_ne_nil r)
        omega
      have hscan := @ih ⟨f.content, f.pos + (line r).length⟩ fuel
        (fun s hs => hlog s (List.mem_cons_of_mem r hs)) hrest hle (Nat.lt_of_succ_lt_succ hfuel)
      rw [scanLoop, hreadKey]
      dsimp only
      rw [hreadVal]
      dsimp only
      rw [hscan, cString_eq_self.mpr hr.zero_notMem_key, cString_eq_self.mpr hr.zero_notMem_val,
        offsets, List.filter_cons]
      by_cases hdead : r.1.head? = some tilde
      · simp [kept, hdead]
      · simp [kept, hdead]

theorem scan_lines (hlog : ∀ r ∈ log, Readable r) :
    scan (log.flatMap line) = some (live line kept log) := by
  apply scanLoop_of_lines hlog rfl (Nat.zero_le _)
  have hle := length_le_length_lines log
  omega

/-! ### Crossing out a record -/

/-- A record once a tilde is written over its first byte. -/
def crossed (r : Bytes × Bytes) : Bytes × Bytes := (tilde :: r.1.tail, r.2)

theorem kept_crossed (r : Bytes × Bytes) : kept (crossed r) = false := by simp [kept, crossed]

theorem length_crossed (hr : r.1 ≠ []) : (line (crossed r)).length = (line r).length := by
  have hpos := List.length_pos_iff.mpr hr
  rw [length_line, length_line, crossed, List.length_cons, List.length_tail]
  dsimp only
  omega

theorem Readable.crossed (h : Readable r) : Readable (crossed r) where
  key_ne_nil := List.cons_ne_nil _ _
  val_ne_nil := h.val_ne_nil
  key := by
    obtain ⟨htab, heof, hlen⟩ := h.key
    have hpos := List.length_pos_iff.mpr h.key_ne_nil
    refine ⟨?_, ?_, ?_⟩
    · exact List.not_mem_cons_of_ne_of_not_mem (by decide) fun hmem => htab (List.mem_of_mem_tail hmem)
    · exact List.not_mem_cons_of_ne_of_not_mem (by decide) fun hmem => heof (List.mem_of_mem_tail hmem)
    · rw [NoVoHT.crossed, List.length_cons, List.length_tail]
      omega
  val := h.val
  zero_notMem_key :=
    List.not_mem_cons_of_ne_of_not_mem (by decide) fun hmem =>
      h.zero_notMem_key (List.mem_of_mem_tail hmem)
  zero_notMem_val := h.zero_notMem_val

theorem puts_byte (pre rest : Bytes) (c d : UInt8) (pos : Nat) :
    ({ Stream.mk (pre ++ c :: rest) pos with pos := pre.length }.puts [d]).content =
      pre ++ d :: rest := by
  simp only [Stream.puts, List.length_singleton, drop_word]
  simp

/-- A tilde at the start of a record changes that record only. -/
theorem puts_tilde (hr : r.1 ≠ []) (l r' : List (Bytes × Bytes)) (pos : Nat) :
    ({ Stream.mk ((l ++ r :: r').flatMap line) pos with pos := (l.flatMap line).length }.puts
      [tilde]).content = (l ++ crossed r :: r').flatMap line := by
  obtain ⟨_ | ⟨c, key⟩, val⟩ := r
  · exact absurd rfl hr
  · have hsplit : ∀ d, (l ++ (d :: key, val) :: r').flatMap line =
        l.flatMap line ++ d :: (key ++ [tab] ++ val ++ [tab] ++ r'.flatMap line) := by
      intro d
      simp [line]
    rw [crossed, hsplit c, List.tail_cons, hsplit tilde, puts_byte]

/-- Crossing out the record of an address takes it out of the index, and the log keeps the others. -/
theorem struck_index {c : Nat → Option (Nat × Bytes × Bytes)} (hf : f.content = log.flatMap line)
    (hlog : ∀ r ∈ log, Readable r) (h : Index line kept log c st) (ha : c a = some (o, k, v)) :
    ∃ log', ({ f with pos := o }.puts [tilde]).content = log'.flatMap line ∧
      (∀ r ∈ log', Readable r) ∧
      Index line kept log' (Function.update c a none) (Function.update st k none) ∧
      (live line kept log).Perm ((o, k, v) :: live line kept log') := by
  obtain ⟨hkept, l, r, rfl, rfl⟩ := h.split ha
  have hread := hlog (k, v) (by simp)
  have hlen := length_crossed hread.key_ne_nil
  refine ⟨l ++ crossed (k, v) :: r, ?_, ?_, ?_, ?_⟩
  · rw [← puts_tilde hread.key_ne_nil l r f.pos, ← hf]
  · intro s hs
    rcases List.mem_append.mp hs with hs | hs
    · exact hlog s (List.mem_append_left _ hs)
    · rcases List.mem_cons.mp hs with rfl | hs
      · exact hread.crossed
      · exact hlog s (List.mem_append_right l (List.mem_cons_of_mem _ hs))
  · exact h.strike ha (fun x _ => line_ne_nil x) hkept hlen (kept_crossed _)
  · exact live_strike line hlen hkept (kept_crossed _)

/-! ### The index in the heap -/

/-- Where the record of the pair at an address is, and what it says. -/
def cells (h : Heap Pair) : Nat → Option (Nat × Bytes × Bytes) := Option.map Pair.located ∘ datas h

theorem cells_update {h h' : Heap Pair} {p : Option Pair}
    (heq : datas h' = Function.update (datas h) a p) :
    cells h' = Function.update (cells h) a (p.map Pair.located) := by
  rw [cells, heq, Function.comp_update]
  rfl

/-- The table is a finite map, and its heap is the index of its file. -/
structure Logged (t : NoVoHT) (st : Store) (log : List (Bytes × Bytes)) : Prop where
  models : t.Models st
  file : ∃ pos, t.dbfile = some ⟨log.flatMap line, pos⟩
  readable : ∀ r ∈ log, Readable r
  index : Index line kept log (cells t.heap) st

theorem cells_of_datas {h : Heap Pair} {p : Pair} (ha : datas h a = some p) :
    cells h a = some (p.pos, p.key, p.val) := by
  rw [cells, Function.comp_apply, ha]
  rfl

theorem Table.cell (hT : t.Table rows) (hmem : (a, k, v) ∈ rows (bucketOf k t.size)) :
    ∃ o, cells t.heap a = some (o, k, v) := by
  obtain ⟨next, hview⟩ := (hT.chain_of k).mem hmem
  obtain ⟨data, hnode, hkv⟩ := exists_of_view hview
  obtain ⟨rfl, rfl⟩ := Prod.mk.inj hkv
  exact ⟨data.pos, cells_of_datas (datas_of_some hnode)⟩

/-- Every pair in the heap is in the bucket of its key. -/
theorem Logged.mem_rows (h : Logged t st log) (hT : t.Table rows) (hH : t.Holds rows st)
    (ha : cells t.heap a = some (o, k, v)) : (a, k, v) ∈ rows (bucketOf k t.size) := by
  obtain ⟨b, hmem⟩ := (hH k v).mp ((h.index.map k v).mpr ⟨a, o, ha⟩)
  obtain ⟨o', hb⟩ := hT.cell hmem
  rwa [← h.index.unique hb ha]

theorem walkChain_of_linked {h : Heap Pair} {p : Option Nat} {es : List Entry} {fuel : Nat}
    (hs : Linked (pairs h) p es) (hfuel : es.length ≤ fuel) :
    ∃ ps, walkChain h fuel p = some ps ∧ ps.map Pair.kv = es.map Prod.snd ∧
      ∀ p ∈ ps, ∃ a, datas h a = some p := by
  induction es generalizing p fuel with
  | nil =>
      cases hs
      exact ⟨[], by cases fuel <;> rfl, rfl, nofun⟩
  | cons e es ih =>
      obtain ⟨a, d⟩ := e
      obtain ⟨rfl, next, data, hnode, rfl, hrest⟩ := head_of_linked hs
      cases fuel with
      | zero => cases hfuel
      | succ fuel =>
          obtain ⟨ps, hwalk, hkvs, hdatas⟩ := ih hrest (Nat.le_of_succ_le_succ hfuel)
          refine ⟨data :: ps, by simp [walkChain, hnode, hwalk], ?_, ?_⟩
          · rw [List.map_cons, List.map_cons, hkvs]
          · intro q hq
            rcases List.mem_cons.mp hq with rfl | hq
            · exact ⟨a, datas_of_some hnode⟩
            · exact hdatas q hq

theorem walk_of_table (hT : t.Table rows) : ∃ ps, t.walk = some ps ∧
    ps.map Pair.kv = (Table.all t rows).map Prod.snd ∧ ∀ p ∈ ps, ∃ a, datas t.heap a = some p := by
  have hchains : ∀ (bs : List Nat) (qs : List Pair), (∀ b ∈ bs, b < t.size) → ∃ ps,
      bs.foldlM (fun ps i => (walkChain t.heap t.fresh (t.kvpairs i)).map (ps ++ ·)) qs =
        some (qs ++ ps) ∧ ps.map Pair.kv = (bs.flatMap rows).map Prod.snd ∧
      ∀ p ∈ ps, ∃ a, datas t.heap a = some p := by
    intro bs
    induction bs with
    | nil => exact fun qs _ => ⟨[], by simp, rfl, nofun⟩
    | cons b bs ih =>
        intro qs hbs
        have hb := hbs b List.mem_cons_self
        obtain ⟨ps, hwalk, hkvs, hdatas⟩ := walkChain_of_linked (hT.chain b hb) (hT.length_le hb)
        obtain ⟨ps', hrest, hkvs', hdatas'⟩ :=
          ih (qs ++ ps) fun c hc => hbs c (List.mem_cons_of_mem _ hc)
        refine ⟨ps ++ ps', ?_, ?_, ?_⟩
        · rw [List.foldlM_cons, hwalk, ← List.append_assoc]
          exact hrest
        · rw [List.flatMap_cons, List.map_append, List.map_append, hkvs, hkvs']
        · intro p hp
          rcases List.mem_append.mp hp with hp | hp
          · exact hdatas p hp
          · exact hdatas' p hp
  exact hchains (List.range t.size) [] fun b hb => List.mem_range.mp hb

/-- A table that is the index of its file agrees with it. -/
theorem Logged.agrees (h : Logged t st log) : t.Agrees := by
  obtain ⟨pos, hf⟩ := h.file
  obtain ⟨-, rows, hT, hH⟩ := h.models
  obtain ⟨ps, hwalk, hkvs, hdatas⟩ := walk_of_table hT
  have honce : (ps.map Pair.key).Nodup := by
    have hkeys := hT.nodup_all
    rw [show (Table.all t rows).map (fun e => e.2.1) =
      ((Table.all t rows).map Prod.snd).map Prod.fst by rw [List.map_map]; rfl, ← hkvs,
      List.map_map] at hkeys
    exact hkeys
  refine ⟨_, _, ps, hf, scan_lines h.readable, hwalk, honce, ?_, ?_⟩
  · have hnodup : (ps.map Pair.located).Nodup := by
      apply List.Nodup.of_map (fun e => e.2.1)
      rw [List.map_map]
      exact honce
    apply (List.perm_ext_iff_of_nodup (nodup_live line fun x _ => line_ne_nil x) hnodup).mpr
    intro e
    rw [h.index.live, List.mem_map]
    constructor
    · rintro ⟨a, ha⟩
      obtain ⟨o, k, v⟩ := e
      have hin : (k, v) ∈ ps.map Pair.kv := by
        rw [hkvs]
        exact List.mem_map.mpr ⟨_, hT.mem_all.mpr (h.mem_rows hT hH ha), rfl⟩
      obtain ⟨p, hp, hkv⟩ := List.mem_map.mp hin
      obtain ⟨rfl, rfl⟩ := Prod.mk.inj hkv
      obtain ⟨c, hc⟩ := hdatas p hp
      have hcell := cells_of_datas hc
      obtain rfl := h.index.unique hcell ha
      exact ⟨p, hp, Option.some.inj (hcell.symm.trans ha)⟩
    · rintro ⟨p, hp, rfl⟩
      obtain ⟨a, ha⟩ := hdatas p hp
      exact ⟨a, cells_of_datas ha⟩
  · intro p hp
    obtain ⟨a, ha⟩ := hdatas p hp
    obtain ⟨log', hcontent, hread, -, hperm⟩ := @struck_index st ⟨log.flatMap line, pos⟩ p.key p.val
      log a p.pos _ rfl h.readable h.index (cells_of_datas ha)
    refine ⟨live line kept log', ?_, hperm⟩
    rw [hcontent]
    exact scan_lines hread

/-! ### Putting -/

theorem write_effect {s : NoVoHT × Int} {data : Pair} (hf : t.dbfile = some f)
    (ha : datas t.heap a = some data) (h : t.write a = some s) :
    cells s.1.heap = Function.update (cells t.heap) a
        (some (f.content.length, data.key, data.val)) ∧
      ∃ pos, s.1.dbfile = some ⟨f.content ++ record data.key data.val, pos⟩ := by
  obtain ⟨node, hnode, rfl⟩ := Option.map_eq_some_iff.mp ha
  rw [write, hf] at h
  dsimp only at h
  rw [hnode] at h
  obtain rfl := Option.some.inj h
  constructor
  · exact cells_update (datas_update ..)
  · exact ⟨_, congrArg some (Stream.puts_seekEnd f _)⟩

/-- A record written at the end belongs to the address it is written for, if that was free. -/
theorem Logged.write {s : NoVoHT × Int} {c : Nat → Option (Nat × Bytes × Bytes)} (data : Pair)
    (hindex : Index line kept log c st) (hlog : ∀ r ∈ log, Readable r)
    (hf : t₁.dbfile = some f) (hcontent : f.content = log.flatMap line)
    (ha : datas t₁.heap a = some data) (hdata : Readable (data.key, data.val))
    (hkept : kept (data.key, data.val) = true) (hfree : c a = none) (hst : st data.key = none)
    (hcells : ∀ e, Function.update (cells t₁.heap) a e = Function.update c a e)
    (h : t₁.write a = some s)
    (hm : s.1.Models (Function.update st data.key (some data.val))) :
    Logged s.1 (Function.update st data.key (some data.val)) (log ++ [(data.key, data.val)]) := by
  obtain ⟨hcells', pos, hf'⟩ := write_effect hf ha h
  refine ⟨hm, ⟨pos, ?_⟩, ?_, ?_⟩
  · rw [hf', hcontent, record_eq hdata.zero_notMem_key hdata.zero_notMem_val, List.flatMap_append,
      List.flatMap_singleton]
  · intro r hr
    rcases List.mem_append.mp hr with hr | hr
    · exact hlog r hr
    · rw [List.mem_singleton.mp hr]
      exact hdata
  · rw [hcells', hcells, hcontent]
    exact hindex.append hfree hst hkept

theorem Logged.fresh (h : Logged t st log) : cells t.heap t.fresh = none := by
  by_contra hsome
  obtain ⟨⟨o, k, v⟩, hcell⟩ := Option.ne_none_iff_exists'.mp hsome
  obtain ⟨-, rows, hT, hH⟩ := h.models
  exact (hT.fresh _ (hT.bucketOf_lt k) _ (h.mem_rows hT hH hcell)).false

theorem Logged.insert (h : Logged t st log) (hkv : Readable (k, v)) (hkept : kept (k, v) = true) :
    ∃ s log', t.insert k v = some s ∧ Logged s.1 (Function.update st k (some v)) log' := by
  obtain ⟨s, hrun, hm, -⟩ := insert_models h.models k v
  obtain ⟨pos, hf⟩ := h.file
  rcases insert_cases h.models k v with ⟨hst, t₁, hinsert, hadded⟩ | ⟨a, data, rfl, hst, ha, hinsert⟩
  · refine ⟨s, _, hrun, Logged.write ⟨k, v, 0⟩ h.index h.readable
      (hadded.dbfile.trans hf) rfl ?_ hkv hkept h.fresh hst ?_ (hinsert.symm.trans hrun) hm⟩
    · rw [hadded.heap, Function.update_self]
    · intro e
      rw [cells_update hadded.heap, Function.update_idem]
  · obtain ⟨node, hnode, rfl⟩ := Option.map_eq_some_iff.mp ha
    rw [hrun, overwrite, hnode, Option.bind_some] at hinsert
    obtain ⟨log', hcontent, hread, hindex, -⟩ := @struck_index st ⟨log.flatMap line, pos⟩ node.data.key
      node.data.val log a node.data.pos _ rfl h.readable h.index (cells_of_datas ha)
    have hmark := mark_eq (t := { t with
      heap := Function.update t.heap a (some ⟨node.next, { node.data with val := v }⟩) })
      h.models.1 node.data.pos
    rw [hmark] at hinsert
    have hback : Function.update st node.data.key (some v) =
        Function.update (Function.update st node.data.key none) node.data.key (some v) := by
      rw [Function.update_idem]
    rw [hback] at hm ⊢
    refine ⟨s, _, hrun, Logged.write { node.data with val := v } hindex hread ?_ hcontent ?_
      hkv hkept (Function.update_self ..) (Function.update_self ..) ?_ hinsert.symm hm⟩
    · dsimp only
      rw [struck, hf, Option.map_some]
    · dsimp only
      rw [datas_update, Function.update_self]
    · intro e
      dsimp only
      rw [cells_update (datas_update ..), Function.update_idem, Function.update_idem]

theorem relink_datas {ns fuel : Nat} {p : Option Nat} {s s' : Heap Pair × (Nat → Option Nat)}
    (h : relink ns fuel p s = some s') : datas s'.1 = datas s.1 := by
  induction fuel generalizing p s with
  | zero =>
      cases p with
      | none =>
          cases h
          rfl
      | some cur => cases h
  | succ fuel ih =>
      cases p with
      | none =>
          cases h
          rfl
      | some cur =>
          rw [relink] at h
          cases hnode : s.1 cur with
          | none =>
              rw [hnode] at h
              cases h
          | some node =>
              rw [hnode] at h
              exact (ih h).trans (datas_relink hnode)

theorem resize_effect {ns : Nat} {t' : NoVoHT} (h : t.resize ns = some t') :
    datas t'.heap = datas t.heap ∧ t'.dbfile = t.dbfile := by
  obtain ⟨-, s, hrun, rfl⟩ := resize_cases h
  refine ⟨?_, rfl⟩
  dsimp only
  have hall : ∀ (bs : List Nat) (s₀ : Heap Pair × (Nat → Option Nat)),
      bs.foldlM (fun s i => relink ns t.fresh (t.kvpairs i) s) s₀ = some s →
        datas s.1 = datas s₀.1 := by
    intro bs
    induction bs with
    | nil =>
        intro s₀ hs
        cases hs
        rfl
    | cons b bs ih =>
        intro s₀ hs
        rw [List.foldlM_cons] at hs
        obtain ⟨s₁, hs₁, hrest⟩ := Option.bind_eq_some_iff.mp hs
        exact (ih s₁ hrest).trans (relink_datas hs₁)
  exact hall _ _ hrun

theorem Logged.put (h : Logged t st log) {grow : Bool} (hfits : grow = true → t.size * 2 < 2 ^ 31)
    (hkv : Readable (k, v)) (hkept : kept (k, v) = true) :
    ∃ s log', t.put grow k v = some s ∧ Logged s.1 (Function.update st k (some v)) log' := by
  unfold NoVoHT.put
  cases grow with
  | false => exact h.insert hkv hkept
  | true =>
      have hpos : 0 < t.size * 2 := by
        obtain ⟨-, rows, hT, -⟩ := h.models
        exact Nat.mul_pos hT.pos (by decide)
      obtain ⟨t₁, hresize, hm₁, -⟩ := resize_models h.models hpos (hfits rfl)
      obtain ⟨hdatas, hfile⟩ := resize_effect hresize
      have h₁ : Logged t₁ st log := by
        refine ⟨hm₁, ?_, h.readable, ?_⟩
        · rw [hfile]
          exact h.file
        · rw [cells, hdatas]
          exact h.index
      obtain ⟨s, log', hinsert, hs⟩ := h₁.insert hkv hkept
      exact ⟨s, log', by rw [if_pos rfl, hresize, Option.bind_some, hinsert], hs⟩

/-! ### Rewriting the file -/

/-- The line of a pair of a chain. -/
def entryLine (e : Entry) : Bytes := line e.2

theorem writeChain_offsets {h : Heap Pair} {p : Option Nat} {es : List Entry} {pre : Bytes}
    {fuel : Nat} (hs : Linked (pairs h) p es) (hfuel : es.length ≤ fuel)
    (hes : ∀ e ∈ es, Readable e.2) :
    ∃ h', writeChain fuel p (h, ⟨pre, pre.length⟩) =
        some (h', ⟨pre ++ es.flatMap entryLine, (pre ++ es.flatMap entryLine).length⟩) ∧
      pairs h' = pairs h ∧
      (∀ o a r, (o, a, r) ∈ offsets entryLine pre.length es → cells h' a = some (o, r)) ∧
      ∀ a, (∀ e ∈ es, e.1 ≠ a) → cells h' a = cells h a := by
  induction es generalizing p fuel h pre with
  | nil =>
      cases hs
      refine ⟨h, ?_, rfl, nofun, fun _ _ => rfl⟩
      rw [List.flatMap_nil, List.append_nil]
      cases fuel <;> rfl
  | cons e es ih =>
      obtain ⟨a, d⟩ := e
      have hnot := (Linked.notMem_of_nodup (show Linked _ _ ([] ++ _ :: _) from hs)).2
      obtain ⟨rfl, next, data, hnode, rfl, hrest⟩ := head_of_linked hs
      cases fuel with
      | zero => cases hfuel
      | succ fuel =>
          have hread := hes _ List.mem_cons_self
          have hview : pairs (Function.update h a (some ⟨next, { data with pos := pre.length }⟩)) =
              pairs h := view_update_hidden hnode rfl
          have hcells : cells (Function.update h a (some ⟨next, { data with pos := pre.length }⟩)) =
              Function.update (cells h) a (some (pre.length, data.key, data.val)) :=
            cells_update (datas_update ..)
          have hputs : Stream.puts ⟨pre, pre.length⟩ (record data.key data.val) =
              ⟨pre ++ entryLine (a, Pair.kv data), (pre ++ entryLine (a, Pair.kv data)).length⟩ := by
            have hrecord : record data.key data.val = entryLine (a, Pair.kv data) :=
              record_eq hread.zero_notMem_key hread.zero_notMem_val
            rw [hrecord]
            exact Stream.puts_seekEnd ⟨pre, pre.length⟩ _
          obtain ⟨h', hrun, hpairs, hoffsets, hagree⟩ :=
            @ih (Function.update h a (some ⟨next, { data with pos := pre.length }⟩)) next
              (pre ++ entryLine (a, Pair.kv data)) fuel (by rw [hview]; exact hrest)
              (Nat.le_of_succ_le_succ hfuel) fun e he => hes e (List.mem_cons_of_mem _ he)
          refine ⟨h', ?_, hpairs.trans hview, ?_, ?_⟩
          · rw [writeChain]
            dsimp only
            rw [hnode]
            dsimp only
            rw [if_pos ⟨hread.key_ne_nil, hread.val_ne_nil⟩, hputs, hrun, List.flatMap_cons,
              List.append_assoc]
          · intro o b r hmem
            rw [offsets, List.mem_cons] at hmem
            rcases hmem with heq | hmem
            · cases heq
              rw [hagree a hnot, hcells, Function.update_self]
              rfl
            · rw [List.length_append] at hoffsets
              exact hoffsets o b r hmem
          · intro b hb
            rw [hagree b fun e he => hb e (List.mem_cons_of_mem _ he), hcells,
              Function.update_of_ne (hb _ List.mem_cons_self).symm]

theorem writeChains_offsets {h : Heap Pair} {bs : List Nat} {buckets : Nat → Option Nat}
    {pre : Bytes} {fuel : Nat} (hs : ∀ b ∈ bs, Linked (pairs h) (buckets b) (rows b))
    (hfuel : ∀ b ∈ bs, (rows b).length ≤ fuel)
    (hpairwise : bs.Pairwise fun b c => ∀ e ∈ rows b, ∀ f ∈ rows c, e.1 ≠ f.1)
    (hes : ∀ e ∈ bs.flatMap rows, Readable e.2) :
    ∃ h', bs.foldlM (fun s i => writeChain fuel (buckets i) s) (h, ⟨pre, pre.length⟩) =
        some (h', ⟨pre ++ (bs.flatMap rows).flatMap entryLine,
          (pre ++ (bs.flatMap rows).flatMap entryLine).length⟩) ∧
      (∀ o a r, (o, a, r) ∈ offsets entryLine pre.length (bs.flatMap rows) →
        cells h' a = some (o, r)) ∧
      ∀ a, (∀ e ∈ bs.flatMap rows, e.1 ≠ a) → cells h' a = cells h a := by
  induction bs generalizing h pre with
  | nil =>
      refine ⟨h, ?_, nofun, fun _ _ => rfl⟩
      rw [List.flatMap_nil, List.flatMap_nil, List.append_nil]
      rfl
  | cons b bs ih =>
      obtain ⟨hhead, htail⟩ := List.pairwise_cons.mp hpairwise
      rw [List.flatMap_cons] at hes ⊢
      obtain ⟨h₁, hrun₁, hpairs₁, hoffsets₁, hagree₁⟩ := @writeChain_offsets h _ _ pre _
        (hs b List.mem_cons_self) (hfuel b List.mem_cons_self)
        fun e he => hes e (List.mem_append_left _ he)
      obtain ⟨h₂, hrun₂, hoffsets₂, hagree₂⟩ := @ih h₁ (pre ++ (rows b).flatMap entryLine)
        (fun c hc => by rw [hpairs₁]; exact hs c (List.mem_cons_of_mem _ hc))
        (fun c hc => hfuel c (List.mem_cons_of_mem _ hc)) htail
        fun e he => hes e (List.mem_append_right _ he)
      refine ⟨h₂, ?_, ?_, ?_⟩
      · rw [List.foldlM_cons, hrun₁, List.flatMap_append, ← List.append_assoc]
        exact hrun₂
      · intro o a r hmem
        rw [offsets_append, List.mem_append] at hmem
        rcases hmem with hmem | hmem
        · -- no later bucket has the address
          have hin : (a, r) ∈ rows b := by
            obtain ⟨l, r', hsplit, -⟩ := (mem_offsets entryLine).mp hmem
            rw [hsplit]
            simp
          rw [hagree₂ a, hoffsets₁ o a r hmem]
          intro e he
          obtain ⟨c, hc, he⟩ := List.mem_flatMap.mp he
          exact (hhead c hc (a, r) hin e he).symm
        · rw [List.length_append] at hoffsets₂
          exact hoffsets₂ o a r hmem
      · intro a ha
        rw [hagree₂ a fun e he => ha e (List.mem_append_right _ he),
          hagree₁ a fun e he => ha e (List.mem_append_left _ he)]

theorem Logged.readable_all (h : Logged t st log) (hT : t.Table rows) (hH : t.Holds rows st) :
    ∀ e ∈ Table.all t rows, Readable e.2 ∧ kept e.2 = true := by
  rintro ⟨a, k, v⟩ he
  obtain ⟨b, o, hb⟩ := (h.index.map k v).mp ((hH k v).mpr ⟨a, hT.mem_all.mp he⟩)
  obtain ⟨hkept, l, r, rfl, -⟩ := h.index.split hb
  exact ⟨h.readable (k, v) (by simp), hkept⟩

/-- **Rewriting the file** leaves one record for each pair, and every pair knows where its own is. -/
theorem Logged.writeFile (h : Logged t st log) :
    ∃ s log', t.writeFile = some s ∧ Logged s.1 st log' := by
  obtain ⟨pos, hf⟩ := h.file
  obtain ⟨hb, rows, hT, hH⟩ := h.models
  have hall := h.readable_all hT hH
  have hpairwise : (List.range t.size).Pairwise fun b c =>
      ∀ e ∈ rows b, ∀ f ∈ rows c, e.1 ≠ f.1 := by
    refine List.Pairwise.imp_of_mem ?_ (List.nodup_range (n := t.size))
    intro b c hb hc hne e he f hf heq
    exact hne (hT.bucket_unique (List.mem_range.mp hb) (List.mem_range.mp hc) he hf heq)
  obtain ⟨h', hrun, hoffsets, hagree⟩ := @writeChains_offsets rows t.heap (List.range t.size) t.kvpairs
    [] t.fresh (fun b hb => hT.chain b (List.mem_range.mp hb))
    (fun b hb => hT.length_le (List.mem_range.mp hb)) hpairwise fun e he => (hall e he).1
  rw [List.nil_append] at hrun
  obtain ⟨s, hs, hfiled⟩ := writeFile_filed hT hb
  have hs' := hs
  rw [NoVoHT.writeFile, hf] at hs'
  dsimp only at hs'
  rw [show (⟨[], 0⟩ : Stream) = ⟨[], ([] : Bytes).length⟩ from rfl, hrun, Option.map_some,
    Option.some.injEq] at hs'
  subst hs'
  have hcontent : (Table.all t rows).flatMap entryLine =
      ((Table.all t rows).map Prod.snd).flatMap line := by
    rw [List.flatMap_map]
    rfl
  refine ⟨_, (Table.all t rows).map Prod.snd, hs, (h.models.filed hfiled).1,
    ⟨((Table.all t rows).flatMap entryLine).length, ?_⟩, ?_, ?_⟩
  · rw [← hcontent]
    rfl
  · intro r hr
    obtain ⟨e, he, rfl⟩ := List.mem_map.mp hr
    exact (hall e he).1
  · refine Index.of_list ?_ (fun k v => hH.mem_all hT) hT.nodup_all fun e he => (hall e he).2
    intro a e
    refine ⟨fun ha => ?_, fun he => hoffsets e.1 a e.2 he⟩
    by_cases hin : ∃ x ∈ Table.all t rows, x.1 = a
    · obtain ⟨⟨a, r⟩, hmem, rfl⟩ := hin
      obtain ⟨l, r', hsplit⟩ := List.append_of_mem hmem
      have hoffset := (mem_offsets entryLine).mpr
        ⟨l, r', hsplit, (Nat.zero_add (l.flatMap entryLine).length).symm⟩
      have hcell := hoffsets _ a r hoffset
      obtain rfl := Option.some.inj (hcell.symm.trans ha)
      exact hoffset
    · -- an address in no bucket is free
      obtain ⟨o, k, v⟩ := e
      refine absurd ?_ hin
      have hold : cells t.heap a = some (o, k, v) := by
        rw [← hagree a fun e he heq => hin ⟨e, he, heq⟩]
        exact ha
      exact ⟨_, hT.mem_all.mpr (h.mem_rows hT hH hold), rfl⟩

/-! ### Removing -/

theorem Logged.setRem (h : Logged t st log) (n : Int) : Logged { t with nRem := n } st log :=
  ⟨h.models.setRem n, h.file, h.readable, h.index⟩

theorem Logged.removed (h : Logged t st log) (ret : Int) :
    ∃ s log', t.removed ret = some s ∧ Logged s.1 st log' := by
  unfold NoVoHT.removed
  split
  · obtain ⟨s, log', hwrite, hs⟩ := (h.setRem (t.nRem + 1)).writeFile
    rw [hwrite]
    exact ⟨_, log', rfl, hs.setRem 0⟩
  · exact ⟨_, log, rfl, h.setRem (t.nRem + 1)⟩

theorem Logged.remove (h : Logged t st log) (k : Bytes) :
    ∃ s log', t.remove k = some s ∧ Logged s.1 (Function.update st k none) log' := by
  rcases remove_cases h.models k with ⟨hst, hrun⟩ | ⟨t₁, a, data, rfl, -, hrun, hm₁, hunlinked⟩
  · refine ⟨_, log, hrun, ?_⟩
    rwa [← hst, Function.update_eq_self]
  · obtain ⟨pos, hf⟩ := h.file
    obtain ⟨log', hcontent, hread, hindex, -⟩ := @struck_index st ⟨log.flatMap line, pos⟩ data.key
      data.val log a data.pos _ rfl h.readable h.index (cells_of_datas hunlinked.found)
    have h₁ : Logged t₁ (Function.update st data.key none) log' := by
      refine ⟨hm₁, ⟨data.pos + 1, ?_⟩, hread, ?_⟩
      · rw [hunlinked.dbfile, struck, hf, Option.map_some, ← hcontent]
        rfl
      · rw [cells_update hunlinked.heap]
        exact hindex
    obtain ⟨s, log'', hremoved, hs⟩ := h₁.removed 0
    exact ⟨s, log'', hrun.trans hremoved, hs⟩

/-! ### Runs -/

theorem readable_of_legal (h : (Edit.put k v).Legal) (hzero : (Edit.put k v).Zerofree) :
    Readable (k, v) ∧ kept (k, v) = true := by
  obtain ⟨hk, hv, hkey, hval, htilde⟩ := h
  exact ⟨⟨hk, hv, hkey, hval, hzero.1, hzero.2⟩, decide_eq_true htilde⟩

theorem Logged.call (h : Logged t st log) {full : Int → Nat → Bool} {e : Edit} (hlegal : e.Legal)
    (hzero : e.Zerofree) (hfits : DoubleFits full t e) : ∃ t' st' log', t.call full e = some t' ∧ Logged t' st' log' := by
  cases e with
  | put k v =>
      obtain ⟨hread, hkept⟩ := readable_of_legal hlegal hzero
      obtain ⟨s, log', hput, hs⟩ := h.put hfits hread hkept
      exact ⟨s.1, _, log', by rw [NoVoHT.call, hput]; rfl, hs⟩
  | remove k =>
      obtain ⟨s, log', hremove, hs⟩ := h.remove k
      exact ⟨s.1, _, log', by rw [NoVoHT.call, hremove]; rfl, hs⟩

theorem zero_notMem_scanLoop {fuel : Nat} {es : List (Nat × Bytes × Bytes)}
    (h : scanLoop fuel f = some es) : ∀ e ∈ es, 0 ∉ e.2.1 ∧ 0 ∉ e.2.2 := by
  induction fuel generalizing f es with
  | zero => cases h
  | succ fuel ih =>
      rw [scanLoop] at h
      split at h
      · cases h
        exact nofun
      · next s g _ =>
        dsimp only at h
        split at h
        · cases h
          exact nofun
        · next v g' _ =>
          obtain ⟨rest, hrest, rfl⟩ := Option.map_eq_some_iff.mp h
          split
          · exact ih hrest
          · intro e he
            rcases List.mem_cons.mp he with rfl | he
            · exact ⟨zero_notMem_cString s, zero_notMem_cString v⟩
            · exact ih hrest e he

theorem doubleFits_of_call {full : Int → Nat → Bool} {e : Edit} {t' : NoVoHT}
    (h : call full t e = some t') : DoubleFits full t e := by
  cases e with
  | put k v =>
      obtain ⟨s, hput, -⟩ := Option.map_eq_some_iff.mp h
      exact (put_size hput).1
  | remove k => trivial

/-- A pair with a zero byte is not found again. -/
theorem zerofree_of_agrees (hm : t.Models st) {full : Int → Nat → Bool} {e : Edit} {t' : NoVoHT}
    (hstep : call full t e = some t') (hagrees : t'.Agrees) : e.Zerofree := by
  cases e with
  | put k v =>
      obtain ⟨s, hput, hm', -⟩ := put_models hm (doubleFits_of_call hstep) k v
      rw [NoVoHT.call, hput, Option.map_some, Option.some.injEq] at hstep
      subst hstep
      obtain ⟨-, rows, hT, hH⟩ := hm'
      obtain ⟨f, found, ps, -, hscan, hwalk, hagree⟩ := hagrees
      obtain ⟨ps', hwalk', hkvs, -⟩ := walk_of_table hT
      obtain rfl := Option.some.inj (hwalk.symm.trans hwalk')
      obtain ⟨a, hmem⟩ := (hH.mem_all hT).mp (Function.update_self k (some v) st)
      have hin : (k, v) ∈ ps.map Pair.kv := by
        rw [hkvs]
        exact List.mem_map.mpr ⟨_, hmem, rfl⟩
      obtain ⟨p, hp, hkv⟩ := List.mem_map.mp hin
      obtain ⟨rfl, rfl⟩ := Prod.mk.inj hkv
      exact zero_notMem_scanLoop hscan p.located
        (hagree.perm.mem_iff.mpr (List.mem_map_of_mem hp))
  | remove k => trivial

theorem Logged.safe_iff (full : Int → Nat → Bool) {edits : List Edit} (h : Logged t st log)
    (hlegal : ∀ e ∈ edits, e.Legal) :
    Safe (NoVoHT.call full) Agrees t edits ↔
      (∀ e ∈ edits, e.Zerofree) ∧ Guarded (NoVoHT.call full) (DoubleFits full) t edits := by
  induction edits generalizing t st log with
  | nil => exact iff_of_true h.agrees ⟨nofun, trivial⟩
  | cons e edits ih =>
      have htail : ∀ e ∈ edits, e.Legal := fun e he => hlegal e (List.mem_cons_of_mem _ he)
      constructor
      · rintro ⟨-, t', hstep, hsafe⟩
        have hagrees : t'.Agrees := by
          cases edits with
          | nil => exact hsafe
          | cons e edits => exact hsafe.1
        have hzero := zerofree_of_agrees h.models hstep hagrees
        have hfits := doubleFits_of_call hstep
        obtain ⟨t₁, st', log', hstep', h'⟩ := h.call (hlegal e List.mem_cons_self) hzero hfits
        obtain rfl := Option.some.inj (hstep.symm.trans hstep')
        obtain ⟨hzeros, hguard⟩ := (ih h' htail).mp hsafe
        refine ⟨fun e' he' => ?_, hfits, ?_⟩
        · rcases List.mem_cons.mp he' with rfl | he'
          · exact hzero
          · exact hzeros e' he'
        · rw [hstep]
          exact hguard
      · rintro ⟨hzero, hguard⟩
        obtain ⟨t', st', log', hstep, h'⟩ := h.call (hlegal e List.mem_cons_self)
          (hzero e List.mem_cons_self) hguard.1
        exact ⟨h.agrees, t', hstep,
          (ih h' htail).mpr ⟨fun e he => hzero e (List.mem_cons_of_mem _ he), hguard.tail hstep⟩⟩

/-- A table that is opened on an empty file. -/
theorem logged_construct (full : Int → Nat → Bool) {name : Bytes} (hname : name ≠ []) {s : Nat}
    (hs : 0 < s) (m : Int) : ∃ t log, construct full name [] s m = some t ∧
      Logged t (fun _ => none) log := by
  obtain ⟨t, hm, hheap, hfile, hconstruct, -⟩ := @models_start full name [] s hs m
  rw [fopen, if_neg hname] at hfile
  have hcells : ∀ a, cells t.heap a = none := by
    intro a
    rw [cells, Function.comp_apply, datas, hheap]
    rfl
  have hempty : Logged t (fun _ => none) [] := by
    refine ⟨hm, ⟨0, hfile⟩, fun e he => absurd he List.not_mem_nil, ?_, ?_, ?_⟩
    · refine fun e => iff_of_false List.not_mem_nil ?_
      rintro ⟨a, ha⟩
      rw [hcells] at ha
      cases ha
    · refine fun k v => iff_of_false (Option.some_ne_none _).symm ?_
      rintro ⟨a, o, ha⟩
      rw [hcells] at ha
      cases ha
    · intro a b o o' k v v' ha
      rw [hcells] at ha
      cases ha
  obtain ⟨s', log, hwrite, hlogged⟩ := hempty.writeFile
  refine ⟨s'.1, log, ?_, hlogged⟩
  rw [hconstruct, readFile, hfile]
  dsimp only
  rw [readLoop_of_atEnd full _ hfile rfl, Option.bind_some, hwrite, Option.map_some]

/-- **The log and the table agree** after every call, as long as no zero byte is put and no call
doubles the table past the range of an `int`, and no longer. -/
theorem logAgrees_iff (full : Int → Nat → Bool) {name : Bytes} (hname : name ≠ []) {s : Nat}
    (hs : 0 < s) (m : Int) (edits : List Edit) (hlegal : ∀ e ∈ edits, e.Legal) :
    ∃ t₀, construct full name [] s m = some t₀ ∧
      (Safe (call full) Agrees t₀ edits ↔
        (∀ e ∈ edits, e.Zerofree) ∧ Guarded (call full) (DoubleFits full) t₀ edits) := by
  obtain ⟨t₀, log, hconstruct, hlogged⟩ := logged_construct full hname hs m
  exact ⟨t₀, hconstruct, hlogged.safe_iff full hlegal⟩

/-- An update and two removals, the second of which rewrites the file, with the table growing. -/
theorem logAgrees_iff_compaction : ∃ t₀,
    construct (fun n size => decide ((size : Int) ≤ n)) (cstr "db") [] 1 2 = some t₀ ∧
      (Safe (call fun n size => decide ((size : Int) ≤ n)) Agrees t₀
          [.put (cstr "a") (cstr "1"), .put (cstr "b") (cstr "2"), .put (cstr "a") (cstr "3"),
            .remove (cstr "b"), .put (cstr "c") (cstr "4"), .remove (cstr "a")] ↔
        (∀ e ∈ [Edit.put (cstr "a") (cstr "1"), .put (cstr "b") (cstr "2"),
          .put (cstr "a") (cstr "3"), .remove (cstr "b"), .put (cstr "c") (cstr "4"),
          .remove (cstr "a")], e.Zerofree) ∧
        Guarded (call fun n size => decide ((size : Int) ≤ n))
          (DoubleFits fun n size => decide ((size : Int) ≤ n)) t₀
          [.put (cstr "a") (cstr "1"), .put (cstr "b") (cstr "2"), .put (cstr "a") (cstr "3"),
            .remove (cstr "b"), .put (cstr "c") (cstr "4"), .remove (cstr "a")]) :=
  logAgrees_iff (fun n size => decide ((size : Int) ≤ n)) (by decide) (by decide) 2
    [.put (cstr "a") (cstr "1"), .put (cstr "b") (cstr "2"), .put (cstr "a") (cstr "3"),
      .remove (cstr "b"), .put (cstr "c") (cstr "4"), .remove (cstr "a")] (by decide)

/-- The key is `a`, a zero byte and `b`. Its record has the key `a`. -/
theorem not_logAgrees : (∀ e ∈ [Edit.put [97, 0, 98] (cstr "1")], e.Legal) ∧
    ∃ t₀, construct (fun _ _ => false) (cstr "db") [] 2 100 = some t₀ ∧
      ¬ Safe (call fun _ _ => false) Agrees t₀ [.put [97, 0, 98] (cstr "1")] := by
  have hlegal : ∀ e ∈ [Edit.put [97, 0, 98] (cstr "1")], e.Legal := by decide
  obtain ⟨t₀, log, hconstruct, hlogged⟩ :=
    logged_construct (fun _ _ => false) (show cstr "db" ≠ [] by decide) (show 0 < 2 by decide) 100
  refine ⟨hlegal, t₀, hconstruct, ?_⟩
  intro hsafe
  have hzero := ((hlogged.safe_iff _ hlegal).mp hsafe).1 _ (List.mem_singleton_self _)
  exact hzero.1 (by decide)

end NoVoHT

end FusionFS
