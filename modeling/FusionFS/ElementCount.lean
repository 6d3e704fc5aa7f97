import FusionFS.Lib.Run
import FusionFS.NoVoHTRefinement
import Mathlib.Algebra.Order.Ring.Rat
import Mathlib.Data.Set.Card

/-!
# The number of elements

`numEl` beside the pairs that are in the buckets. It decides when the table grows, and growing sets it
to 0.
-/

namespace FusionFS.NoVoHT

open Chained Transition

/-! ### The table with its resize ratio -/

/-- `resizeNum`, and how a `float` rounds. -/
structure Ratio where
  value : ℚ
  round : ℚ → ℚ
  monotone : Monotone round
  round_zero : round 0 = 0
  round_one : round 1 = 1
  round_value : round value = value

/-- `n >= size*resizeNum`. -/
def Ratio.reached (r : Ratio) (n : Int) (size : Nat) : Bool :=
  decide (r.round (r.round size * r.value) ≤ r.round n)

/-- The tests that make `put` grow the table. -/
def Ratio.full (r : Ratio) (numEl : Int) (size : Nat) : Bool :=
  r.reached numEl size && decide (r.value ≠ 0)

inductive Edit where
  | put (k v : Bytes)
  | remove (k : Bytes)
  deriving DecidableEq

/-- The start of `put`. -/
def checkSize (r : Ratio) (t : NoVoHT) : Option NoVoHT :=
  if r.full t.numEl t.size then t.resize (t.size * 2) else some t

def edit (r : Ratio) (t : NoVoHT) : Edit → Option NoVoHT
  | .put k v => (t.put (r.full t.numEl t.size) k v).map Prod.fst
  | .remove k => (t.remove k).map Prod.fst

/-- The pairs of one chain. -/
def chainLength (h : Heap Pair) : Nat → Option Nat → Option Nat
  | _, none => some 0
  | 0, some _ => none
  | fuel + 1, some cur => do
      let node ← h cur
      let n ← chainLength h fuel node.next
      some (n + 1)

/-- The pairs that are in the buckets. -/
def stored (t : NoVoHT) : Option Nat :=
  (List.range t.size).foldlM (fun n i => (chainLength t.heap t.fresh (t.kvpairs i)).map (n + ·)) 0

/-- `getSize` tells how many pairs there are. -/
def Counted (t : NoVoHT) : Prop := ∃ n : Nat, t.stored = some n ∧ t.numEl = n

/-- Under a positive ratio there is room when a pair comes in. -/
def Roomy (r : Ratio) (t : NoVoHT) : Edit → Prop
  | .put _ _ => 0 < r.value →
      ∃ t₁ n, t.checkSize r = some t₁ ∧ t₁.stored = some n ∧ r.reached n t₁.size = false
  | .remove _ => True

/-- Every state is counted right, and every pair finds room. -/
def CountsRight (r : Ratio) (t : NoVoHT) (edits : List Edit) : Prop :=
  Always (edit r) Counted t edits ∧ EachStep (edit r) (Roomy r) t edits

/-- A call grows the table only as long as there is nothing in it. -/
def KeepsCount (r : Ratio) (t : NoVoHT) : Edit → Prop
  | .put _ _ => r.full t.numEl t.size = true → t.stored = some 0
  | .remove _ => True

/-- A call does not grow the table past what an `int` counts. `full` is the test that makes `put` grow
the table. -/
def DoubleFits (full : Int → Nat → Bool) (t : NoVoHT) : Edit → Prop
  | .put _ _ => full t.numEl t.size = true → t.size * 2 < 2 ^ 31
  | .remove _ => True

variable {t : NoVoHT} {rows : Nat → List Entry} {st : Store} {r : Ratio} {k v : Bytes}
  {e : Edit}

theorem Ratio.reached_of_nonpos (hpos : 0 < r.value) {n : Int} (hn : n ≤ 0) {size : Nat}
    (hsize : 0 < size) : r.reached n size = false := by
  have hone : (1 : ℚ) ≤ r.round size := by
    rw [← r.round_one]
    apply r.monotone
    exact_mod_cast hsize
  have hvalue : r.value ≤ r.round (r.round size * r.value) := by
    calc r.value = r.round r.value := r.round_value.symm
      _ ≤ r.round (r.round size * r.value) := by
          apply r.monotone
          exact le_mul_of_one_le_left hpos.le hone
  have hzero : r.round n ≤ 0 := by
    rw [← r.round_zero]
    apply r.monotone
    exact_mod_cast hn
  rw [Ratio.reached, decide_eq_false_iff_not, not_le]
  exact hzero.trans_lt (hpos.trans_le hvalue)

/-! ### The pairs in the buckets -/

theorem chainLength_of_linked {h : Heap Pair} {p : Option Nat} {es : List Entry} {fuel : Nat}
    (hs : Linked (pairs h) p es) (hfuel : es.length ≤ fuel) :
    chainLength h fuel p = some es.length := by
  induction es generalizing p fuel with
  | nil =>
      cases hs
      cases fuel <;> rfl
  | cons e es ih =>
      obtain ⟨a, d⟩ := e
      obtain ⟨rfl, next, data, hnode, -, hrest⟩ := head_of_linked hs
      cases fuel with
      | zero => cases hfuel
      | succ fuel =>
          have hlen := ih hrest (Nat.le_of_succ_le_succ hfuel)
          simp [chainLength, hnode, hlen]

theorem stored_of_table (hT : t.Table rows) : t.stored = some (Table.all t rows).length := by
  have hchains : ∀ (bs : List Nat) (n : Nat), (∀ b ∈ bs, b < t.size) →
      bs.foldlM (fun n i => (chainLength t.heap t.fresh (t.kvpairs i)).map (n + ·)) n =
        some (n + (bs.flatMap rows).length) := by
    intro bs
    induction bs with
    | nil => simp
    | cons b bs ih =>
        intro n hbs
        have hb := hbs b List.mem_cons_self
        have hlen := chainLength_of_linked (hT.chain b hb) (hT.length_le hb)
        have hrest := ih (n + (rows b).length) fun c hc => hbs c (List.mem_cons_of_mem _ hc)
        rw [List.foldlM_cons, hlen, List.flatMap_cons, List.length_append, ← Nat.add_assoc]
        exact hrest
  have hall := hchains (List.range t.size) 0 fun b hb => List.mem_range.mp hb
  rw [Nat.zero_add] at hall
  exact hall

/-- The keys of a map. -/
def keysOf (st : Store) : Set Bytes := {k | (st k).isSome}

theorem keysOf_eq (hT : t.Table rows) (hH : t.Holds rows st) :
    keysOf st = ((Table.all t rows).map fun e => e.2.1).toFinset := by
  ext k
  rw [keysOf, Set.mem_ofPred_eq, Finset.mem_coe, List.mem_toFinset, List.mem_map]
  constructor
  · intro hsome
    obtain ⟨v, hv⟩ := Option.isSome_iff_exists.mp hsome
    obtain ⟨a, hmem⟩ := (hH k v).mp hv
    exact ⟨(a, k, v), hT.mem_all.mpr hmem, rfl⟩
  · rintro ⟨⟨a, k, v⟩, hmem, rfl⟩
    rw [(hH k v).mpr ⟨a, hT.mem_all.mp hmem⟩]
    rfl

/-- There are as many pairs in the buckets as keys in the map. -/
theorem stored_models (hm : t.Models st) :
    (keysOf st).Finite ∧ t.stored = some (keysOf st).ncard := by
  obtain ⟨-, rows, hT, hH⟩ := hm
  rw [keysOf_eq hT hH]
  refine ⟨Finset.finite_toSet _, ?_⟩
  rw [stored_of_table hT, Set.ncard_coe_finset, List.toFinset_card_of_nodup hT.nodup_all,
    List.length_map]

theorem keysOf_put (st : Store) (k v : Bytes) :
    keysOf (Function.update st k (some v)) = Insert.insert k (keysOf st) := by
  ext k'
  by_cases hk : k' = k
  · simp [keysOf, hk]
  · simp [keysOf, hk]

theorem keysOf_remove (st : Store) (k : Bytes) :
    keysOf (Function.update st k none) = keysOf st \ {k} := by
  ext k'
  by_cases hk : k' = k
  · simp [keysOf, hk]
  · simp [keysOf, hk]

theorem ncard_put (hfin : (keysOf st).Finite) :
    (keysOf (Function.update st k (some v))).ncard =
      (keysOf st).ncard + if (st k).isSome then 0 else 1 := by
  rw [keysOf_put]
  by_cases hsome : (st k).isSome
  · have hmem : k ∈ keysOf st := hsome
    rw [Set.insert_eq_of_mem hmem, if_pos hsome, Nat.add_zero]
  · have hnot : k ∉ keysOf st := hsome
    rw [Set.ncard_insert_of_notMem hnot hfin, if_neg hsome]

theorem ncard_remove (hfin : (keysOf st).Finite) :
    ((keysOf (Function.update st k none)).ncard : Int) =
      (keysOf st).ncard - if (st k).isSome then 1 else 0 := by
  rw [keysOf_remove]
  by_cases hsome : (st k).isSome
  · have hmem : k ∈ keysOf st := hsome
    have hcard := Set.ncard_sdiff_singleton_add_one hmem hfin
    rw [if_pos hsome]
    omega
  · have hnot : k ∉ keysOf st := hsome
    rw [Set.sdiff_singleton_eq_self hnot, if_neg hsome, sub_zero]

/-! ### The counter -/

theorem resize_numEl {t' : NoVoHT} {ns : Nat} (h : t.resize ns = some t') : t'.numEl = 0 := by
  obtain ⟨-, x, -, rfl⟩ := resize_cases h
  rfl

theorem insert_numEl (hm : t.Models st) {s : NoVoHT × Int} (h : t.insert k v = some s) :
    s.1.numEl = t.numEl + if (st k).isSome then 0 else 1 := by
  rcases insert_cases hm k v with ⟨hst, t₁, hrun, hadded⟩ | ⟨a, data, -, hst, -, hrun⟩
  · rw [hrun] at h
    rw [(write_sameCounts h).numEl, hadded.numEl, hst]
    rfl
  · rw [hrun] at h
    obtain ⟨node, -, hwrite⟩ := Option.bind_eq_some_iff.mp h
    rw [(write_sameCounts hwrite).numEl, (mark_sameCounts _ _).numEl, hst]
    exact (add_zero t.numEl).symm

theorem remove_numEl (hm : t.Models st) {s : NoVoHT × Int} (h : t.remove k = some s) :
    s.1.numEl = t.numEl - if (st k).isSome then 1 else 0 := by
  rcases remove_cases hm k with ⟨hst, hrun⟩ | ⟨t₁, a, data, -, hst, hrun, -, hunlinked⟩
  · rw [hrun] at h
    cases h
    rw [hst]
    exact (sub_zero t.numEl).symm
  · rw [hrun] at h
    rw [(removed_sameCounts h).numEl, hunlinked.numEl, hst]
    rfl

/-! ### Runs -/

/-- The table holds a map and counts its keys. -/
def Counts (t : NoVoHT) : Prop := ∃ st, t.Models st ∧ t.numEl = (keysOf st).ncard

theorem Counts.counted (h : t.Counts) : t.Counted := by
  obtain ⟨st, hm, hnum⟩ := h
  exact ⟨_, (stored_models hm).2, hnum⟩

theorem counts_of_counted (hm : t.Models st) (h : t.Counted) : t.numEl = (keysOf st).ncard := by
  obtain ⟨n, hn, hnum⟩ := h
  rw [(stored_models hm).2, Option.some.injEq] at hn
  rw [hnum, hn]

theorem edit_put_eq (r : Ratio) (t : NoVoHT) (k v : Bytes) :
    edit r t (.put k v) = ((t.checkSize r).bind fun t => t.insert k v).map Prod.fst := rfl

theorem checkSize_models (hm : t.Models st) {t₁ : NoVoHT} (h : t.checkSize r = some t₁) :
    t₁.Models st ∧ t₁.numEl = if r.full t.numEl t.size then 0 else t.numEl := by
  unfold checkSize at h
  split at h
  · next hfull =>
    rw [if_pos hfull]
    have hpos : 0 < t.size * 2 := by
      obtain ⟨-, rows, hT, -⟩ := hm
      exact Nat.mul_pos hT.pos (by decide)
    obtain ⟨t₂, hresize, hm₂, -⟩ := resize_models hm hpos (resize_cases h).1
    obtain rfl := Option.some.inj (h.symm.trans hresize)
    exact ⟨hm₂, resize_numEl h⟩
  · next hfull =>
    cases h
    rw [if_neg hfull]
    exact ⟨hm, rfl⟩

/-- A `put` counts on from 0 if the table grows, and else from where it was. -/
theorem put_numEl (hm : t.Models st) {t' : NoVoHT} (h : edit r t (.put k v) = some t') :
    t'.Models (Function.update st k (some v)) ∧
      t'.numEl = (if r.full t.numEl t.size then 0 else t.numEl) +
        if (st k).isSome then 0 else 1 := by
  rw [edit_put_eq] at h
  obtain ⟨s, hput, rfl⟩ := Option.map_eq_some_iff.mp h
  obtain ⟨t₁, hcheck, hinsert⟩ := Option.bind_eq_some_iff.mp hput
  obtain ⟨hm₁, hnum₁⟩ := checkSize_models hm hcheck
  obtain ⟨s', hs', hs, -⟩ := insert_models hm₁ k v
  obtain rfl := Option.some.inj (hinsert.symm.trans hs')
  rw [insert_numEl hm₁ hinsert, hnum₁]
  exact ⟨hs, rfl⟩

theorem edit_remove_numEl (hm : t.Models st) {t' : NoVoHT} (h : edit r t (.remove k) = some t') :
    t'.Models (Function.update st k none) ∧
      t'.numEl = t.numEl - if (st k).isSome then 1 else 0 := by
  obtain ⟨s, hremove, rfl⟩ := Option.map_eq_some_iff.mp h
  obtain ⟨s', hs', hs, -⟩ := remove_models hm k
  obtain rfl := Option.some.inj (hremove.symm.trans hs')
  exact ⟨hs, remove_numEl hm hremove⟩

/-- A step that keeps the count leaves it right, and there was room. -/
theorem counts_step {e : Edit} {t' : NoVoHT} (h : t.Counts) (hstep : edit r t e = some t')
    (hkeep : KeepsCount r t e) : t'.Counts ∧ Roomy r t e := by
  obtain ⟨st, hm, hnum⟩ := h
  obtain ⟨hfin, hstored⟩ := stored_models hm
  cases e with
  | put k v =>
      obtain ⟨hm', hnum'⟩ := put_numEl hm hstep
      -- growing an empty table sets the counter to what it is
      have hsame : (if r.full t.numEl t.size then 0 else t.numEl) = t.numEl := by
        split
        · next hfull =>
          have hempty := hkeep hfull
          rw [hstored, Option.some.injEq] at hempty
          rw [hnum, hempty]
          rfl
        · rfl
      constructor
      · refine ⟨_, hm', ?_⟩
        rw [hnum', hsame, hnum, ncard_put hfin]
        push_cast
        rfl
      · intro hpos
        have hsize : 0 < t.size := by
          obtain ⟨-, rows, hT, -⟩ := hm
          exact hT.pos
        have hreached : r.reached t.numEl t.size = false := by
          by_contra hreach
          rw [Bool.not_eq_false] at hreach
          have hfull : r.full t.numEl t.size = true := by
            rw [Ratio.full, hreach, decide_eq_true hpos.ne']
            rfl
          have hempty := hkeep hfull
          rw [hstored, Option.some.injEq] at hempty
          have hzero : t.numEl ≤ 0 := by
            rw [hnum, hempty]
            exact le_rfl
          rw [Ratio.reached_of_nonpos hpos hzero hsize] at hreach
          cases hreach
        refine ⟨t, _, ?_, hstored, by rwa [← hnum]⟩
        rw [checkSize, Ratio.full, hreached]
        rfl
  | remove k =>
      obtain ⟨hm', hnum'⟩ := edit_remove_numEl hm hstep
      refine ⟨⟨_, hm', ?_⟩, trivial⟩
      rw [hnum', hnum, ncard_remove hfin]

/-- A table that grows with pairs in it is counted wrong at once. -/
theorem keepsCount_of_counted {e : Edit} {t' : NoVoHT} (h : t.Counts)
    (hstep : edit r t e = some t') (hafter : t'.Counted) : KeepsCount r t e := by
  obtain ⟨st, hm, hnum⟩ := h
  obtain ⟨hfin, hstored⟩ := stored_models hm
  cases e with
  | put k v =>
      intro hfull
      obtain ⟨hm', hnum'⟩ := put_numEl hm hstep
      have hright := counts_of_counted hm' hafter
      rw [hnum', if_pos hfull, ncard_put hfin] at hright
      rw [hstored, Option.some.injEq]
      split at hright <;> omega
  | remove k => trivial

theorem edit_isSome (hm : t.Models st) (hfits : DoubleFits r.full t e) :
    ∃ t' st', edit r t e = some t' ∧ t'.Models st' := by
  cases e with
  | put k v =>
      obtain ⟨s, hput, hs, -, -⟩ := put_models hm hfits k v
      exact ⟨s.1, _, by rw [edit, hput]; rfl, hs⟩
  | remove k =>
      obtain ⟨s, hremove, hs, -, -⟩ := remove_models hm k
      exact ⟨s.1, _, by rw [edit, hremove]; rfl, hs⟩

theorem doubleFits_of_edit {t' : NoVoHT} (h : edit r t e = some t') : DoubleFits r.full t e := by
  cases e with
  | put k v =>
      obtain ⟨s, hput, -⟩ := Option.map_eq_some_iff.mp h
      exact (put_size hput).1
  | remove k => trivial

/-- No call of a run fails exactly as long as no table outgrows an `int`. -/
theorem run_isSome_iff (hm : t.Models st) (edits : List Edit) :
    (run (edit r) t edits).isSome ↔ Guarded (edit r) (DoubleFits r.full) t edits := by
  induction edits generalizing t st with
  | nil => exact iff_of_true rfl trivial
  | cons e edits ih =>
      rw [run_cons]
      constructor
      · intro hsome
        cases hstep : edit r t e with
        | none =>
            rw [hstep] at hsome
            cases hsome
        | some t' =>
            have hfits := doubleFits_of_edit hstep
            obtain ⟨t₁, st', hstep₁, hm'⟩ := edit_isSome hm hfits
            obtain rfl := Option.some.inj (hstep.symm.trans hstep₁)
            rw [hstep, Option.bind_some] at hsome
            refine ⟨hfits, ?_⟩
            rw [hstep]
            exact (ih hm').mp hsome
      · intro hguard
        obtain ⟨t', st', hstep, hm'⟩ := edit_isSome hm hguard.1
        rw [hstep, Option.bind_some]
        exact (ih hm').mpr (hguard.tail hstep)

/-- **The elements are counted right** in every state of a run exactly if no call of the run grows a
table that has pairs in it. All calls of the run return exactly if none doubles a table past the
range of an `int`. -/
theorem elementCount_iff (r : Ratio) (t : NoVoHT) (st : Store) (edits : List Edit)
    (hm : t.Models st) (hcounted : t.Counted) :
    (CountsRight r t edits ↔ EachStep (edit r) (KeepsCount r) t edits) ∧
      ((run (edit r) t edits).isSome ↔ Guarded (edit r) (DoubleFits r.full) t edits) := by
  have hinit : t.Counts := ⟨st, hm, counts_of_counted hm hcounted⟩
  refine ⟨?_, run_isSome_iff hm edits⟩
  exact @always_and_eachStep_iff _ _ (edit r) Counts Counted (Roomy r) (KeepsCount r)
    (fun _ h => h.counted)
    (fun _ _ _ h hstep hkeep => counts_step h hstep hkeep)
    (fun _ _ _ h hstep hafter _ => keepsCount_of_counted h hstep hafter) t hinit edits

/-- An empty table in memory, with its number of buckets. -/
def newTable (size : Nat) : NoVoHT where
  size := size
  kvpairs := fun _ => none
  heap := fun _ => none
  fresh := 0
  numEl := 0
  dbfile := none
  filename := []
  nRem := 0
  magicNumber := 10

/-- A ratio that is a whole number, with no rounding. -/
def wholeRatio (n : Nat) : Ratio := ⟨n, id, monotone_id, rfl, rfl, rfl⟩

/-- Two pairs have room in two buckets. -/
theorem elementCount_iff_two :
    (CountsRight (wholeRatio 1) (newTable 2) [.put (cstr "a") [], .put (cstr "b") []] ↔
      EachStep (edit (wholeRatio 1)) (KeepsCount (wholeRatio 1)) (newTable 2)
        [.put (cstr "a") [], .put (cstr "b") []]) ∧
    ((run (edit (wholeRatio 1)) (newTable 2) [.put (cstr "a") [], .put (cstr "b") []]).isSome ↔
      Guarded (edit (wholeRatio 1)) (DoubleFits (wholeRatio 1).full) (newTable 2)
        [.put (cstr "a") [], .put (cstr "b") []]) :=
  elementCount_iff (wholeRatio 1) (newTable 2) (fun _ => none)
    [.put (cstr "a") [], .put (cstr "b") []]
    (models_empty (fun _ => rfl) (by decide) fun _ => rfl) ⟨0, rfl, rfl⟩

/-- With one bucket the second call grows the table: two pairs are stored and one is counted. -/
theorem not_elementCount :
    ¬ CountsRight (wholeRatio 1) (newTable 1) [.put (cstr "a") [], .put (cstr "b") []] := by
  rintro ⟨hcounted, -⟩
  have hend : ((run (edit (wholeRatio 1)) (newTable 1)
      [.put (cstr "a") [], .put (cstr "b") []]).map fun t => (t.stored, t.numEl)) =
        some (some 2, 1) := by
    decide +kernel
  obtain ⟨t, hrun, ht⟩ := Option.map_eq_some_iff.mp hend
  obtain ⟨n, hn, hnum⟩ := @Always.reached _ _ _ _ _ _ _ [] hcounted hrun
  obtain ⟨hstored, hcount⟩ := Prod.mk.inj ht
  rw [hstored, Option.some.injEq] at hn
  omega

end FusionFS.NoVoHT
