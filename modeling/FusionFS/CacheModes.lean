import FusionFS.Clock
import FusionFS.Failures

/-!
# The cache queue in its three modes

Next to the clock there are a queue by last use and one by frequency. `fusion_open` and
`fusion_create` put the file into the queue of their mode behind the system call, whatever the call
has returned.
-/

namespace FusionFS

open SecondChance

/-- The queue of the LRU mode, from `lru_head` to `lru_tail`. -/
@[ext]
structure LruQueue where
  names : List Bytes
  nodup : names.Nodup

/-- The queue of the LFU mode, from `lfu_head` to `lfu_tail`: each file with its `freq`. -/
structure LfuQueue where
  entries : List (Bytes × Nat)
  nodup : (entries.map Prod.fst).Nodup
  sorted : entries.Pairwise fun x y => x.2 ≤ y.2

namespace LruQueue

/-- `insque_lru`. An element that is there is removed first. -/
def insque (fname : Bytes) (q : LruQueue) : LruQueue where
  names := q.names.filter (· ≠ fname) ++ [fname]
  nodup := by
    refine (q.nodup.filter _).append (List.nodup_singleton fname) ?_
    intro a ha hmem
    exact of_decide_eq_true (List.mem_filter.mp ha).2 (List.mem_singleton.mp hmem)

theorem insque_eq_self_iff {fname : Bytes} {q : LruQueue} :
    q.insque fname = q ↔ q.names.getLast? = some fname := by
  constructor
  · intro h
    rw [← h]
    exact List.getLast?_concat
  · intro h
    obtain ⟨init, hinit⟩ := List.getLast?_eq_some_iff.mp h
    apply LruQueue.ext
    have hnodup := q.nodup
    rw [hinit, List.nodup_append] at hnodup
    have hnot : fname ∉ init := fun hmem => hnodup.2.2 fname hmem fname (by simp) rfl
    rw [insque]
    dsimp only
    have hkeep : init.filter (· ≠ fname) = init := by
      apply List.filter_eq_self.mpr
      intro a ha
      exact decide_eq_true fun heq => hnot (heq ▸ ha)
    rw [hinit, List.filter_append, hkeep]
    simp

end LruQueue

/-- Before the first element of a higher frequency, where `get_pos_lfu` points. -/
def insertByFreq (elem : Bytes × Nat) : List (Bytes × Nat) → List (Bytes × Nat)
  | [] => [elem]
  | curr :: rest =>
      if elem.2 < curr.2 then elem :: curr :: rest else curr :: insertByFreq elem rest

theorem insertByFreq_perm (elem : Bytes × Nat) (l : List (Bytes × Nat)) :
    (insertByFreq elem l).Perm (elem :: l) := by
  induction l with
  | nil => exact .refl _
  | cons curr rest ih =>
      unfold insertByFreq
      split
      · exact .refl _
      · exact (ih.cons curr).trans (.swap elem curr rest)

theorem insertByFreq_sorted {elem : Bytes × Nat} {l : List (Bytes × Nat)}
    (h : l.Pairwise fun x y => x.2 ≤ y.2) :
    (insertByFreq elem l).Pairwise fun x y => x.2 ≤ y.2 := by
  induction l with
  | nil => exact List.pairwise_singleton _ _
  | cons curr rest ih =>
      obtain ⟨hcurr, hrest⟩ := List.pairwise_cons.mp h
      unfold insertByFreq
      split
      · next hlt =>
        refine List.pairwise_cons.mpr ⟨?_, h⟩
        intro x hx
        rcases List.mem_cons.mp hx with rfl | hx
        · exact hlt.le
        · exact hlt.le.trans (hcurr x hx)
      · next hge =>
        refine List.pairwise_cons.mpr ⟨?_, ih hrest⟩
        intro x hx
        rcases List.mem_cons.mp ((insertByFreq_perm elem rest).mem_iff.mp hx) with rfl | hx
        · omega
        · exact hcurr x hx

namespace LfuQueue

/-- `findelem_lfu`, with the frequency of what it finds. -/
def freq (fname : Bytes) (q : LfuQueue) : Option Nat :=
  (q.entries.find? (·.1 = fname)).map Prod.snd

/-- `insque_lfu` of an element whose frequency is one. -/
def insque (fname : Bytes) (q : LfuQueue) : LfuQueue where
  entries := insertByFreq (fname, match q.freq fname with
    | some n => n + 1
    | none => 1) (q.entries.filter (·.1 ≠ fname))
  nodup := by
    refine ((insertByFreq_perm _ _).map Prod.fst).nodup_iff.mpr (List.nodup_cons.mpr ⟨?_, ?_⟩)
    · intro hmem
      obtain ⟨e, he, heq⟩ := List.mem_map.mp hmem
      exact of_decide_eq_true (List.mem_filter.mp he).2 heq
    · exact q.nodup.sublist (List.filter_sublist.map Prod.fst)
  sorted := insertByFreq_sorted (q.sorted.sublist List.filter_sublist)

theorem mem_insque_entries (fname : Bytes) (q : LfuQueue) :
    (fname, match q.freq fname with
      | some n => n + 1
      | none => 1) ∈ (q.insque fname).entries :=
  (insertByFreq_perm _ _).mem_iff.mpr List.mem_cons_self

theorem freq_of_mem {e : Bytes × Nat} {q : LfuQueue} (he : e ∈ q.entries) :
    q.freq e.1 = some e.2 := by
  rw [freq, Option.map_eq_some_iff]
  cases hfind : q.entries.find? (·.1 = e.1) with
  | none =>
      have hnot := List.find?_eq_none.mp hfind e he
      simp at hnot
  | some x =>
      have hname : x.1 = e.1 := by simpa using List.find?_some hfind
      have hx := List.mem_of_find?_eq_some hfind
      exact ⟨x, rfl, congrArg Prod.snd (List.inj_on_of_nodup_map q.nodup hx he hname)⟩

/-- A file is never put in without a change: its frequency rises, or it is new. -/
theorem insque_ne_self (fname : Bytes) (q : LfuQueue) : q.insque fname ≠ q := by
  intro heq
  have hmem := mem_insque_entries fname q
  rw [heq] at hmem
  have hfreq := freq_of_mem hmem
  dsimp only at hfreq
  cases hold : q.freq fname with
  | none => cases hold.symm.trans hfreq
  | some n =>
      rw [hold] at hfreq
      have hrise : n = n + 1 := Option.some.inj hfreq
      omega

end LfuQueue

/-- The queue of the clock mode, from the hand on. -/
@[ext]
structure HandQueue where
  entries : Queue Bytes
  nodup : (names entries).Nodup

/-- `insque_clock`. -/
def HandQueue.insque (fname : Bytes) (q : HandQueue) : HandQueue :=
  ⟨SecondChance.insque fname q.entries, nodup_names_insque q.nodup⟩

/-- The queue of the mode the mount was compiled for. -/
inductive CacheQueue where
  | clock (q : HandQueue)
  | lru (q : LruQueue)
  | lfu (q : LfuQueue)

/-! ### The eviction loops -/

/-- `remque_lru`. -/
def LruQueue.remque (q : LruQueue) : LruQueue := ⟨q.names.tail, q.nodup.tail⟩

/-- `remque_lfu`. -/
def LfuQueue.remque (q : LfuQueue) : LfuQueue where
  entries := q.entries.tail
  nodup := by
    rw [List.map_tail]
    exact q.nodup.tail
  sorted := q.sorted.tail

/-- The loop of the LRU mode. Behind `remque_lru` it takes the name for the store from the new
head, which is `NULL` where the last element has gone. -/
def LruQueue.evict : List Bool → LruQueue → Option LruQueue
  | true :: full, q =>
      match q.names with
      | [] => some q
      | [_] => none
      | _ => evict full q.remque
  | _, q => some q

/-- The loop of the LFU mode, which does the same. -/
def LfuQueue.evict : List Bool → LfuQueue → Option LfuQueue
  | true :: full, q =>
      match q.entries with
      | [] => some q
      | [_] => none
      | _ => evict full q.remque
  | _, q => some q

def HandQueue.evict (full : List Bool) (q : HandQueue) : HandQueue where
  entries := (victims full q.entries).2
  nodup :=
    (List.nodup_append.mp ((names_perm_of_victims full q.entries).nodup_iff.mp q.nodup)).2.1

namespace CacheQueue

def evict (full : List Bool) : CacheQueue → Option CacheQueue
  | clock q => some (clock (q.evict full))
  | lru q => (q.evict full).map lru
  | lfu q => (q.evict full).map lfu

def insque (fname : Bytes) : CacheQueue → CacheQueue
  | clock q => clock (q.insque fname)
  | lru q => lru (q.insque fname)
  | lfu q => lfu (q.insque fname)

def names : CacheQueue → List Bytes
  | clock q => SecondChance.names q.entries
  | lru q => q.names
  | lfu q => q.entries.map Prod.fst

end CacheQueue

/-! ### The calls -/

/-- Which of the two, and what `is_symlink_ssd` answers in `fusion_open`. -/
inductive CacheCall where
  | open (symlink : Bool)
  | create

/-- What `ssd_is_full` answers in the loop. `fusion_open` has a loop for a link only. -/
def CacheCall.answers (full : List Bool) : CacheCall → List Bool
  | .open false => []
  | .open true => full
  | .create => full

/-- A call up to its system call, which leaves `call` in `errno` when it fails. -/
def cachedCall (op : CacheCall) (full : List Bool) (fpath : Bytes) (call : Option Errno)
    (q : CacheQueue) : Option (Int × CacheQueue) := do
  let q ← q.evict (op.answers full)
  -- `strcpy` of a longer name would run past the element
  if nameMax ≤ fpath.length then none
  else some (retstatOf call, q.insque fpath)

/-- The queue has the file where putting it in would bring it: marked and out of the hand's reach,
or last. -/
def Settled (full : List Bool) (fpath : Bytes) : CacheQueue → Prop
  | .clock q => Ahead (full.takeWhile id).length fpath q.entries
  | .lru q => q.names.getLast? = some fpath
  | .lfu _ => False

theorem mem_victims_iff {fpath : Bytes} (full : List Bool) (q : Queue Bytes) :
    (fpath, true) ∈ (victims full q).2 ↔ Ahead (full.takeWhile id).length fpath q := by
  induction full generalizing q with
  | nil => exact ahead_zero_iff.symm
  | cons answer full ih =>
      cases answer with
      | false => exact ahead_zero_iff.symm
      | true =>
          rw [List.takeWhile_cons_of_pos rfl, List.length_cons, victims]
          cases hq : SecondChance.remque q with
          | none =>
              have hnil : q = [] := by
                by_contra hne
                have hsome := remque_isSome hne
                rw [hq] at hsome
                cases hsome
              rw [hnil]
              exact iff_of_false List.not_mem_nil (not_ahead_unmarked fun _ he => absurd he List.not_mem_nil)
          | some res =>
              obtain ⟨fname, rest⟩ := res
              dsimp only
              rw [ih, ahead_remque_iff hq]

/-- The last element stays last, as a loop that takes it does not end. -/
theorem LruQueue.getLast?_evict {full : List Bool} {q q' : LruQueue} (h : q.evict full = some q') :
    q'.names.getLast? = q.names.getLast? := by
  induction full generalizing q with
  | nil =>
      cases h
      rfl
  | cons answer full ih =>
      cases answer with
      | false =>
          cases h
          rfl
      | true =>
          unfold evict at h
          split at h
          · cases h
            rfl
          · cases h
          · next hmany =>
            rw [ih h, remque]
            dsimp only
            cases hnames : q.names with
            | nil => rfl
            | cons fname rest =>
                rw [List.tail_cons, List.getLast?_cons]
                cases rest with
                | nil => exact absurd hnames (hmany fname)
                | cons next rest => rfl

variable {op : CacheCall} {full : List Bool} {fpath : Bytes} {e : Errno} {ret : Int}
  {q q' : CacheQueue}

theorem CacheQueue.insque_eq_self_iff (h : q.evict full = some q') :
    q'.insque fpath = q' ↔ Settled full fpath q := by
  cases q with
  | clock q =>
      cases h
      rw [Settled, ← mem_victims_iff]
      change _ ↔ (fpath, true) ∈ (q.evict full).entries
      rw [← SecondChance.insque_eq_self_iff (q.evict full).nodup]
      constructor
      · exact fun heq => congrArg HandQueue.entries (CacheQueue.clock.inj heq)
      · exact fun heq => congrArg CacheQueue.clock (HandQueue.ext heq)
  | lru q =>
      obtain ⟨q₁, hevict, rfl⟩ := Option.map_eq_some_iff.mp h
      rw [Settled, ← LruQueue.getLast?_evict hevict, ← LruQueue.insque_eq_self_iff]
      exact ⟨CacheQueue.lru.inj, congrArg _⟩
  | lfu q =>
      obtain ⟨q₁, -, rfl⟩ := Option.map_eq_some_iff.mp h
      exact iff_of_false (fun heq => q₁.insque_ne_self fpath (CacheQueue.lfu.inj heq)) id

/-- **A failed call leaves the queue as its loop has left it** exactly when the file is settled. -/
theorem failed_queue_iff (h : cachedCall op full fpath (some e) q = some (ret, q')) :
    ret < 0 ∧ (q.evict (op.answers full) = some q' ↔ Settled (op.answers full) fpath q) := by
  obtain ⟨q₁, hevict, heq⟩ := Option.bind_eq_some_iff.mp h
  split at heq
  · cases heq
  · obtain ⟨rfl, rfl⟩ := Prod.mk.inj (Option.some.inj heq)
    refine ⟨retstatOf_neg_iff.mpr nofun, ?_⟩
    rw [hevict, ← CacheQueue.insque_eq_self_iff hevict, Option.some_inj]
    exact eq_comm

/-- A file opened once more, last in the queue already. -/
theorem failed_queue_iff_last :
    (-13 : Int) < 0 ∧
      (CacheQueue.evict [] (.lru ⟨[cstr "/mnt/a", cstr "/mnt/b"], by decide⟩) =
          some (CacheQueue.insque (cstr "/mnt/b")
            (.lru ⟨[cstr "/mnt/a", cstr "/mnt/b"], by decide⟩)) ↔
        Settled [] (cstr "/mnt/b") (.lru ⟨[cstr "/mnt/a", cstr "/mnt/b"], by decide⟩)) :=
  @failed_queue_iff (.open false) [true] _ ⟨13, by decide⟩ _ _ _ rfl

/-- A file whose directory is not there comes into the queue, and out of it as a victim. -/
theorem not_failed_queue :
    (cachedCall .create [false] (cstr "/mnt/no/f") (some ⟨2, by decide⟩)
      (.clock ⟨[], List.nodup_nil⟩)).map (fun r => (r.1, r.2.names)) =
        some (-2, [cstr "/mnt/no/f"]) ∧
    (CacheQueue.evict [false] (.clock ⟨[], List.nodup_nil⟩)).map CacheQueue.names = some [] ∧
    (victims [true] (SecondChance.insque (cstr "/mnt/no/f") [])).1 = [cstr "/mnt/no/f"] := by
  refine ⟨?_, ?_, ?_⟩ <;> decide

end FusionFS
